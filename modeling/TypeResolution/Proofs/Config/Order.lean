import TypeResolution.Proofs.Catalog.SameNames
import TypeResolution.Proofs.Catalog.Storage
import TypeResolution.Proofs.Config.Registration

/-!
# The order in which types are declared

Types are registered before any of them is read, so a text may name a type that is declared later,
and what it denotes depends on the order in nothing but the numbers: in the catalogs of the headers
names are found alike (`Config.headers_findsAlike`), so every text of the configuration is read
alike (`TypeEntry.read_rename`). Reading succeeds in one order if it succeeds in the other
(`Config.exists_catalog_of_perm`), although another text may be the first one to fail. And the
definition that stands at a place of one catalog has been read of the same type as the one of the
same name in the other (`Config.definition_of_perm`), so the catalogs are renamed into each other,
and every question to them has the same answer (`Config.catalog_of_perm`).

Without back-ticks in the names this needs no look at the order. A name with a back-tick of its own
might be taken for one with a suffix, and then the first definition that fits would win.
-/

namespace TypeResolution

/-! ## Reading with other numbers

Suppose that names are found alike in two catalogs, up to the numbers. Whatever is read over one of
them, a type, a bound, a parameter, a whole entry, is then read over the other one with the numbers
changed, and the first error is the same. -/

section

variable {ρ : DefIndex → DefIndex} {c c' : Catalog} (hfind : Catalog.FindsAlike ρ c c')

/-- If each element is read alike up to `g`, so is the list. -/
theorem mapM_map_of_eq {α β ε : Type} {f f' : α → Except ε β} {g : β → β}
    (h : ∀ a, f' a = (f a).map g) (as : List α) : as.mapM f' = (as.mapM f).map (List.map g) := by
  induction as with
  | nil => rfl
  | cons a as ih =>
    rw [List.mapM_cons, List.mapM_cons, h, ih]
    cases f a with
    | error e => rfl
    | ok b => cases as.mapM f <;> rfl

include hfind

namespace Config

/-- A text is read as the same type with other numbers. -/
theorem readType_rename (src : String) :
    readType c' src = (readType c src).map (Ty.rename ρ) := by
  rw [readType, readType, hfind.readOpen]
  cases c.readOpen src <;> rfl

/-- An optional text is read alike. -/
theorem readType?_rename (src? : Option String) :
    readType? c' src? = (readType? c src?).map (Option.map (Ty.rename ρ)) := by
  cases src? with
  | none => rfl
  | some src =>
    rw [readType?, readType?, readType_rename hfind]
    cases readType c src <;> rfl

/-- A bound is read alike. -/
theorem readBound_rename (src : String) :
    readBound c' src = (readBound c src).map (Bound.rename ρ) := by
  rw [readBound, readBound, readType_rename hfind]
  split
  · rfl
  · split
    · rfl
    · cases readType c src <;> rfl

/-- What arrays inherit is read alike. -/
theorem readArrays_rename (arrays : Option ArrayEntry) :
    readArrays c' arrays =
      (readArrays c arrays).map (Prod.map (Option.map (Ty.rename ρ)) (List.map (Ty.rename ρ))) := by
  cases arrays with
  | none => rfl
  | some arrays =>
    rw [readArrays, readArrays, readType?_rename hfind, mapM_map_of_eq (readType_rename hfind)]
    cases readType? c arrays.base with
    | error e => rfl
    | ok base => cases arrays.interfaces.mapM (readType c) <;> rfl

end Config

/-- A parameter with its bounds is read alike. -/
theorem ParamEntry.read_rename (p : ParamEntry) :
    p.read c' = (p.read c).map (TypeParam.rename ρ) := by
  rw [read, read, mapM_map_of_eq (Config.readBound_rename hfind)]
  cases p.bounds.mapM (Config.readBound c) <;> rfl

/-- What is read of a type is the same, up to the numbers. -/
theorem TypeEntry.read_rename (e : TypeEntry) :
    e.read c' = (e.read c).map (Definition.rename ρ) := by
  rw [read, read, Config.readType?_rename hfind, mapM_map_of_eq (Config.readType_rename hfind),
    mapM_map_of_eq (ParamEntry.read_rename hfind)]
  cases Config.readType? c e.base with
  | error err => rfl
  | ok base =>
    cases e.interfaces.mapM (Config.readType c) with
    | error err => rfl
    | ok interfaces => cases e.params.mapM (ParamEntry.read c) <;> rfl

end

/-! ## Types in another order

A permutation of the types permutes their headers, and nothing in the headers depends on what the
types declare. So the catalogs of the headers can be compared before anything is read, and this is
what reading then depends on. -/

namespace Config

open Catalog

variable {config : Config}

/-- When a configuration has a catalog, told without reference to the order of its types. -/
theorem exists_catalog_iff : (∃ c, config.catalog = .ok c) ↔ config.headers.UniquelyNamed ∧
    (∀ e ∈ config.types, ∃ d, e.read config.headers = .ok d) ∧
      ∃ arrays, readArrays config.headers config.arrays = .ok arrays := by
  constructor
  · rintro ⟨c, hc⟩
    obtain ⟨hnames, ds, arrays, hds, harrays, -⟩ := catalog_eq_ok_iff.mp hc
    refine ⟨hnames, fun e he => ?_, arrays, harrays⟩
    obtain ⟨i, hi, rfl⟩ := List.mem_iff_getElem.mp he
    exact ⟨_, hds.get hi (hds.length_eq ▸ hi)⟩
  · rintro ⟨hnames, hread, arrays, harrays⟩
    -- Conversely there is a definition for each type, and the definitions are put in a list, one
    -- type after another. The catalog of the headers stays that of the whole configuration.
    have hds : ∃ ds, List.Forall₂ (fun e d => e.read config.headers = .ok d) config.types ds := by
      generalize config.types = es at hread
      induction es with
      | nil => exact ⟨[], .nil⟩
      | cons e es ih =>
        obtain ⟨⟨d, hd⟩, hread⟩ := List.forall_mem_cons.mp hread
        obtain ⟨ds, hds⟩ := ih hread
        exact ⟨d :: ds, .cons hd hds⟩
    obtain ⟨ds, hds⟩ := hds
    exact ⟨_, catalog_eq_ok_iff.mpr ⟨hnames, ds, arrays, hds, harrays, rfl⟩⟩

section

variable {config' : Config} (htypes : config'.types.Perm config.types)
include htypes

/-- The same headers are registered. -/
theorem headers_perm : config'.headers.defs.Perm config.headers.defs :=
  (htypes.map TypeEntry.header).append_left standIns

/-- Being uniquely named does not depend on the order. -/
theorem uniquelyNamed_perm (h : config.headers.UniquelyNamed) : config'.headers.UniquelyNamed :=
  ((headers_perm htypes).map Definition.name).nodup_iff.mpr h

variable (hnames : ∀ e ∈ config.types, aritySeparator ∉ e.name.toList)
include hnames

/-- In the catalogs of the headers, names are found alike. -/
theorem headers_findsAlike (h : config.headers.UniquelyNamed) :
    MatchesLabels (config.headers.sameName config'.headers) config.headers config'.headers ∧
      FindsAlike (config.headers.sameName config'.headers) config.headers config'.headers := by
  have h' := uniquelyNamed_perm htypes h
  have hmatch := matchesLabels_sameName h' ((headers_perm htypes).map Definition.label)
  refine ⟨hmatch, hmatch.findsAlike (wellNamed_headers h hnames) (wellNamed_headers h' ?_)⟩
  exact fun e he => hnames e (htypes.mem_iff.mp he)

/-- A configuration has a catalog in one order if it has one in another. -/
theorem exists_catalog_of_perm (harrays : config'.arrays = config.arrays)
    (h : ∃ c, config.catalog = .ok c) : ∃ c, config'.catalog = .ok c := by
  obtain ⟨hunique, hread, arrays, harraysRead⟩ := exists_catalog_iff.mp h
  have hfind := (headers_findsAlike htypes hnames hunique).2
  refine exists_catalog_iff.mpr ⟨uniquelyNamed_perm htypes hunique, fun e he => ?_, ?_⟩
  · obtain ⟨d, hd⟩ := hread e (htypes.mem_iff.mp he)
    exact ⟨_, by rw [e.read_rename hfind, hd]; rfl⟩
  · exact ⟨_, by rw [harrays, readArrays_rename hfind, harraysRead]; rfl⟩

omit hnames in
/-- Wherever it stands in the order, what is read of a type is the same. -/
theorem definition_of_perm {c c' : Catalog} {ρ : DefIndex → DefIndex}
    (hc : config.catalog = .ok c) (hc' : config'.catalog = .ok c') (hmatch : MatchesLabels ρ c c')
    (hrenaming : Renaming ρ) (hfind : FindsAlike ρ config.headers config'.headers) (d : DefIndex) :
    c'.definition (ρ d) = (c.definition d).rename ρ := by
  rcases Nat.lt_or_ge d c.defs.length with hlt | hge
  · rcases definition_of_catalog hc hlt with ⟨hd, hdef⟩ | ⟨hd, e, he, hread⟩
    · -- a stand-in, which keeps its number
      have hstandIn : Catalog.empty.definition d ∈ standIns :=
        getElem_definition (c := .empty) hd ▸ List.getElem_mem hd
      rw [hdef, hrenaming.standIns_rename _ hstandIn, hrenaming.fixed d hd]
      rcases definition_of_catalog hc' (hmatch.length ▸ hlt) with ⟨-, hdef'⟩ | ⟨hge, -⟩
      · exact hdef'
      · exact absurd hd (Nat.not_lt.mpr hge)
    · -- a type of the configuration, which is the one of the same name
      rcases definition_of_catalog hc' (hmatch.lt d hlt) with ⟨hd', -⟩ | ⟨-, e', he', hread'⟩
      · have hfixed := hrenaming.injective (hrenaming.fixed (ρ d) hd')
        rw [hfixed] at hd'
        exact absurd hd' (Nat.not_lt.mpr hd)
      · have hlabel : e'.header.label = e.header.label := by
          rw [← TypeEntry.label_of_read hread', ← TypeEntry.label_of_read hread, hmatch.label d hlt]
        obtain rfl := eq_of_header_name (catalog_eq_ok_iff.mp hc).1 he (htypes.mem_iff.mp he')
          (Prod.mk.inj hlabel).1
        rw [e'.read_rename hfind, hread] at hread'
        exact (Except.ok.inj hread').symm
  · -- a number that was never given out
    have hbeyond {c : Catalog} {d : DefIndex} (hd : c.defs.length ≤ d) :
        c.definition d = { name := "" } := by
      rw [definition, List.getD_eq_getElem?_getD, List.getElem?_eq_none hd, Option.getD_none]
    rw [hmatch.beyond d hge, hbeyond (hmatch.length ▸ hge), hbeyond hge]
    rfl

/-- The catalog of the types in another order is the same, up to the numbers. -/
theorem renames_of_perm (harrays : config'.arrays = config.arrays) {c c' : Catalog}
    (hc : config.catalog = .ok c) (hc' : config'.catalog = .ok c') :
    MatchesLabels (c.sameName c') c c' ∧ FindsAlike (c.sameName c') c c' ∧
      Renames (c.sameName c') c c' := by
  have hunique := (catalog_eq_ok_iff.mp hc).1
  have hunique' := uniquelyNamed_perm htypes hunique
  have hnames' : ∀ e ∈ config'.types, aritySeparator ∉ e.name.toList := fun e he =>
    hnames e (htypes.mem_iff.mp he)
  have hwell := wellNamed_of_catalog hc hnames
  have hwell' := wellNamed_of_catalog hc' hnames'
  -- The labels of both catalogs are those of the headers, so they are permuted like these. This
  -- gives the numbers, and the rest is reading with other numbers.
  have hlabels : (c'.defs.map Definition.label).Perm (c.defs.map Definition.label) := by
    rw [labels_of_catalog hc, labels_of_catalog hc']
    exact (headers_perm htypes).map Definition.label
  have hmatch := matchesLabels_sameName hwell'.unique hlabels
  have hrenaming := hmatch.isRenaming hwell.unique hwell'.unique
  have hfind := (hmatch.of_labels (labels_of_catalog hc).symm
    (labels_of_catalog hc').symm).findsAlike (wellNamed_headers hunique hnames)
      (wellNamed_headers hunique' hnames')
  have hdefinition := definition_of_perm htypes hc hc' hmatch hrenaming hfind
  have harrayTypes := arrays_of_catalog hc'
  rw [harrays, readArrays_rename hfind, arrays_of_catalog hc] at harrayTypes
  obtain ⟨hbase, hinterfaces⟩ := Prod.mk.inj (Except.ok.inj harrayTypes)
  exact ⟨hmatch, hmatch.findsAlike hwell hwell', hrenaming, hdefinition, hbase.symm,
    hinterfaces.symm⟩

end

end Config

/-! ## The main result -/

/-- One catalog is another one with other numbers for the definitions, and all questions have the
same answers in both, up to the numbers. -/
structure Catalog.Isomorphism (ρ : DefIndex → DefIndex) (c c' : Catalog) : Prop where
  /-- the numbers of one catalog stand for those of the other -/
  bijective : Function.Bijective ρ
  /-- a definition goes to the one of the same full name -/
  name : ∀ d < c.defs.length, ρ d < c'.defs.length ∧ c'.name (ρ d) = c.name d
  /-- and these are the same, up to the numbers -/
  definition : ∀ d, c'.definition (ρ d) = (c.definition d).rename ρ
  /-- open expressions denote the same types, or fail for the same reason -/
  readOpen : ∀ src, c'.readOpen src = (c.readOpen src).map (Ty.rename ρ)
  /-- so do closed ones -/
  readClosed : ∀ fuel src, c'.readClosed fuel src =
    (c.readClosed fuel src).map (mapOutcome (ReadingError.rename ρ) (Ty.rename ρ))
  /-- types inherit from the same types, in the same order -/
  ancestors : ∀ fuel t, c'.ancestors fuel (t.rename ρ) =
    (c.ancestors fuel t).map (List.map (Ty.rename ρ))
  /-- the same types are assignable -/
  isAssignable : ∀ fuel target source,
    c'.isAssignable fuel (target.rename ρ) (source.rename ρ) = c.isAssignable fuel target source
  /-- definitions have the same instances, or refuse the arguments for the same reason -/
  instantiate : ∀ fuel d args, c'.instantiate fuel (ρ d) (args.map (Ty.rename ρ)) =
    (c.instantiate fuel d args).map (mapOutcome (ArgumentError.rename ρ) (Ty.rename ρ))

namespace Config

open Catalog

/-- **The order in which types are declared does not matter.** If no name has a back-tick in it, a
configuration has a catalog in one order of its types exactly if it has one in another, and these
catalogs are the same but for the numbers of their definitions. -/
theorem catalog_of_perm (config : Config) {types : List TypeEntry}
    (htypes : types.Perm config.types)
    (hnames : ∀ e ∈ config.types, aritySeparator ∉ e.name.toList) :
    ((∃ c, config.catalog = .ok c) ↔ ∃ c', Config.catalog { config with types } = .ok c') ∧
      ∀ c c', config.catalog = .ok c → Config.catalog { config with types } = .ok c' →
        Isomorphism (c.sameName c') c c' := by
  have harrays : Config.arrays { config with types } = config.arrays := rfl
  refine ⟨⟨exists_catalog_of_perm htypes hnames harrays, ?_⟩, fun c c' hc hc' => ?_⟩
  · have hnames' := fun e he => hnames e (htypes.mem_iff.mp he)
    exact exists_catalog_of_perm htypes.symm hnames' harrays.symm
  · obtain ⟨hmatch, hfind, hrenames⟩ := renames_of_perm htypes hnames harrays hc hc'
    exact {
      bijective := ⟨hrenames.injective, hmatch.surjective⟩
      name := fun d hd => ⟨hmatch.lt d hd, hmatch.name_eq hd⟩
      definition := hrenames.definition
      readOpen := hfind.readOpen
      readClosed := hrenames.readClosed hfind
      ancestors := hrenames.ancestors_rename
      isAssignable := hrenames.isAssignable_rename
      instantiate := hrenames.instantiate_rename }

/-- The types of the lists that arrays are may be declared the other way round. -/
theorem catalog_of_reversed_arraysAsLists :
    (∀ e ∈ arraysAsLists.types, aritySeparator ∉ e.name.toList) ∧
      ∃ c', Config.catalog { arraysAsLists with types := arraysAsLists.types.reverse } = .ok c' ∧
        Isomorphism (arraysAsListsCatalog.sameName c') arraysAsListsCatalog c' := by
  have hnames : ∀ e ∈ arraysAsLists.types, aritySeparator ∉ e.name.toList := by decide
  have horder := catalog_of_perm arraysAsLists (List.reverse_perm _) hnames
  obtain ⟨c', hc'⟩ := horder.1.mp ⟨_, arraysAsLists_catalog⟩
  exact ⟨hnames, c', hc', horder.2 _ c' arraysAsLists_catalog hc'⟩

end Config

end TypeResolution
