import TypeResolution.Proofs.Catalog.Arity
import TypeResolution.Proofs.Catalog.Storage
import TypeResolution.Proofs.Config.Registration
import TypeResolution.Proofs.Expr.Writing

/-!
# Types that are written and read again

What a type is written as is a way of writing an expression (`Catalog.writes_render`), and this
expression denotes the type. Two things stand in between. The suffix of a name is left out, and the
number of arguments brings it back: this needs names that lookup does not confuse
(`Catalog.WellNamed`). And a closed type is not only looked up but instantiated again: its pointers
may be stored in nominal form, and instantiating their stand-in gives the pointer itself, which is
stored in the same form when the definition around it is instantiated.

A type without a name cannot be written: an empty text is no expression
(`Config.namelessType_not_read`).

So the round trip goes through three layers. A text is written for an expression, the parser reads
that expression and no other one (`Writes.unique`), and the expression is looked up and
instantiated. The types for which the last layer gives back what one started with are the canonical
ones, and their construction is what the induction goes along (`Canonical.toClosed_expr`).
-/

namespace TypeResolution

namespace Catalog

variable {c : Catalog}

/-! ## The expression of a type

Types are written over their definitions' names, without suffixes. Stand-ins are written as what
they stand for, so the expression of a type has a suffix where the type has a stand-in. -/

mutual
/-- The expression that a type is written as. -/
def expr (c : Catalog) : Ty → Expr
  | .param i => .param i
  | .named d ts => .named (nameWithoutArity (c.name d)) (exprAll c ts)
  | .array n t => .array (expr c t) n
  | .pointer t => .pointer (expr c t)
  | .byRef t => .byRef (expr c t)

/-- The expressions that types are written as, one by one. -/
def exprAll (c : Catalog) : List Ty → List Expr
  | [] => []
  | t :: ts => expr c t :: exprAll c ts
end

/-- The expressions of a list are those of its members. -/
theorem exprAll_eq_map (ts : List Ty) : c.exprAll ts = ts.map c.expr := by
  induction ts with
  | nil => rfl
  | cons t ts ih => rw [exprAll, ih, List.map_cons]

/-- A type over the definitions of a catalog, whose arrays have at least one dimension. -/
inductive Covers (c : Catalog) : Ty → Prop
  /-- a parameter -/
  | param (i : Nat) : Covers c (.param i)
  /-- a definition that there is -/
  | named {d : DefIndex} {ts : List Ty} (hd : d < c.defs.length) (hts : ∀ t ∈ ts, Covers c t) :
    Covers c (.named d ts)
  /-- an array -/
  | array (n : Nat) {elem : Ty} (helem : Covers c elem) : Covers c (.array (n + 1) elem)
  /-- a pointer -/
  | pointer {elem : Ty} (helem : Covers c elem) : Covers c (.pointer elem)
  /-- a by-reference type -/
  | byRef {elem : Ty} (helem : Covers c elem) : Covers c (.byRef elem)

/-- A text that the scanner takes for a name. -/
def IsName (text : String) : Prop := text ≠ "" ∧ ∀ ch ∈ text.toList, Lexeme.isNameChar ch = true

/-- **A type is written as its expression**, if the names of all definitions are names. -/
theorem writes_render (hnames : ∀ d < c.defs.length, IsName (nameWithoutArity (c.name d))) {t : Ty}
    (ht : c.Covers t) : Expr.Writes (c.render t) (c.expr t) := by
  induction ht with
  | param i => exact Expr.writes_param i
  | @named d ts hd _ ih =>
    obtain ⟨hne, hchars⟩ := hnames d hd
    rw [render, renderAll_eq_map, expr, exprAll_eq_map]
    refine Expr.writes_named hne hchars ?_
    rw [List.forall₂_map_left_iff, List.forall₂_map_right_iff]
    exact List.forall₂_same.mpr ih
  | array n _ ih => exact ih.array n
  | pointer _ ih => exact ih.pointer
  | byRef _ ih => exact ih.byRef

/-- A parameter of a list of expressions is one of its members'. -/
theorem mem_indicesAll {es : List Expr} {i : Nat} (h : i ∈ Expr.indicesAll es) :
    ∃ e ∈ es, i ∈ e.indices := by
  induction es with
  | nil => cases h
  | cons e es ih =>
    rcases List.mem_append.mp h with h | h
    · exact ⟨e, List.mem_cons_self, h⟩
    · obtain ⟨e', he', hi⟩ := ih h
      exact ⟨e', List.mem_cons_of_mem e he', hi⟩

/-- The parameters of the expression are those of the type. -/
theorem AtArity.indices_expr {n : Nat} {t : Ty} (ht : c.AtArity n t) :
    ∀ i ∈ (c.expr t).indices, i < n := by
  induction ht with
  | param hi => exact List.forall_mem_singleton.mpr hi
  | named _ _ ih =>
    intro i hi
    rw [expr, Expr.indices, exprAll_eq_map] at hi
    obtain ⟨e, he, hi⟩ := mem_indicesAll hi
    obtain ⟨t, ht, rfl⟩ := List.mem_map.mp he
    exact ih t ht i hi
  | array _ ih => exact ih
  | pointer _ ih => exact ih
  | byRef _ ih => exact ih

/-! ## Reading it again

Open types are looked up and not instantiated. So what is read is the type as it is written, without
any stand-ins. -/

/-- A definition is found under its name without suffix, for as many arguments as it takes. -/
theorem WellNamed.find?_nameWithoutArity (hc : c.WellNamed) {d : DefIndex}
    (hd : d < c.defs.length) {n : Nat} (hn : n = c.arity d) :
    c.find? (nameWithoutArity (c.name d)) (some n) = some d := by
  obtain ⟨text, hgoes⟩ := hc.goesBy_definition hd
  have htext : nameWithoutArity (c.name d) = text := hgoes.nameWithoutArity
  rw [hn, htext]
  exact hc.find?_of_goesBy hd hgoes

/-- Inside a definition, the expression of a type denotes the type. -/
theorem toOpen_expr (hc : c.WellNamed) {n : Nat} {t : Ty} (harity : c.AtArity n t)
    (hcovers : c.Covers t) : (c.expr t).toOpen c = .ok t := by
  induction harity with
  | param hi => rfl
  | @named d ts hlength _ ih =>
    cases hcovers with
    | named hd hts =>
      -- The arguments are read as a list, so what is known of each of them is put together first.
      have hall : ∀ us : List Ty, (∀ t ∈ us, (c.expr t).toOpen c = .ok t) →
          Expr.toOpenAll c (c.exprAll us) = .ok us := by
        intro us hus
        induction us with
        | nil => rfl
        | cons u us ihus =>
          obtain ⟨hu, hus⟩ := List.forall_mem_cons.mp hus
          rw [exprAll, Expr.toOpenAll, hu, ihus hus]
          rfl
      have hfind := hc.find?_nameWithoutArity hd hlength
      rw [expr, Expr.toOpen, exprAll_eq_map, List.length_map, hfind, ← exprAll_eq_map,
        hall ts fun t ht => ih t ht (hts t ht)]
      rfl
  | array _ ih =>
    cases hcovers with
    | array n helem => rw [expr, Expr.toOpen, ih helem]; rfl
  | pointer _ ih =>
    cases hcovers with
    | pointer helem => rw [expr, Expr.toOpen, ih helem]; rfl
  | byRef _ ih =>
    cases hcovers with
    | byRef helem => rw [expr, Expr.toOpen, ih helem]; rfl

/-! ## Instantiating it again

The type is canonical, so it was built by instantiating with some fuel. Reading needs fuel for each
of these instantiations. It is found from the inside out: with enough for every argument and for the
definition itself there is enough for the whole. -/

/-- A type is covered if its stored form is. -/
theorem Covers.of_storedArg {t : Ty} (h : c.Covers (storedArg t)) : c.Covers t := by
  cases t with
  | pointer elem =>
    cases h with
    | named _ hts => exact .pointer (hts elem List.mem_cons_self)
  | byRef elem =>
    cases h with
    | named _ hts => exact .byRef (hts elem List.mem_cons_self)
  | _ => exact h

/-- The stand-in of a pointer or by-reference type denotes that type. -/
theorem toClosed_expr_standIn (hc : c.WellNamed) {m : Marker} {elem t : Ty} {fuel : Nat}
    (harity : m.arity = 1) (hs : Ty.structural? m.definition [elem] = some (.ok t))
    (helem : (c.expr elem).toClosed c fuel = some (.ok elem)) (hclosed : elem.isClosed = true) :
    (c.expr (.named m.definition [elem])).toClosed c fuel = some (.ok t) := by
  have hd : m.definition < c.defs.length := by
    refine Nat.lt_of_lt_of_le ?_ c.standIns_le
    cases m <;> decide
  have hlength : [elem].length = m.arity := harity.symm
  have hfind := hc.find?_nameWithoutArity hd (hlength.trans (c.arity_definition m).symm)
  have hinstance := instantiate_of_structural? (c := c) hlength
    (List.forall_mem_singleton.mpr hclosed) hs fuel
  have hall : Expr.toClosedAll c fuel [c.expr elem] = some (.ok [elem]) := by
    rw [Expr.toClosedAll, helem]
    rfl
  rw [expr, exprAll, exprAll, Expr.toClosed]
  rw [show [c.expr elem].length = [elem].length from rfl, hfind, hall]
  simp only [hinstance]
  rfl

/-- An argument denotes itself in the form in which it is stored, too. -/
theorem toClosed_expr_storedArg (hc : c.WellNamed) {t : Ty} {fuel : Nat}
    (h : (c.expr t).toClosed c fuel = some (.ok t)) (hclosed : t.isClosed = true) :
    (c.expr (storedArg t)).toClosed c fuel = some (.ok t) := by
  cases t with
  | pointer elem =>
    obtain ⟨_, helem, ⟨⟩⟩ := exists_of_map_eq_ok h
    exact toClosed_expr_standIn (m := .pointer) hc rfl rfl helem hclosed
  | byRef elem =>
    obtain ⟨_, helem, ⟨⟩⟩ := exists_of_map_eq_ok h
    exact toClosed_expr_standIn (m := .byRef) hc rfl rfl helem hclosed
  | _ => exact h

/-- Expressions that denote types do so all together. -/
theorem toClosedAll_eq_ok {es : List Expr} {ts : List Ty}
    (h : List.Forall₂ (fun e t => ∃ n, ∀ fuel, n ≤ fuel → e.toClosed c fuel = some (.ok t)) es ts) :
    ∃ n, ∀ fuel, n ≤ fuel → Expr.toClosedAll c fuel es = some (.ok ts) := by
  induction h with
  | nil => exact ⟨0, fun _ _ => rfl⟩
  | cons he _ ih =>
    obtain ⟨n, hn⟩ := he
    obtain ⟨m, hm⟩ := ih
    refine ⟨max n m, fun fuel hfuel => ?_⟩
    rw [Expr.toClosedAll, hn fuel (Nat.le_trans (Nat.le_max_left n m) hfuel),
      hm fuel (Nat.le_trans (Nat.le_max_right n m) hfuel)]
    rfl

/-- **The expression of a canonical type denotes the type**, from some fuel on. -/
theorem Canonical.toClosed_expr (hc : c.WellNamed) {t : Ty} (h : c.Canonical t)
    (hcovers : c.Covers t) :
    ∃ n, ∀ fuel, n ≤ fuel → (c.expr t).toClosed c fuel = some (.ok t) := by
  induction h with
  | @intro fuel₀ d args t hargs hinstance ih =>
    rcases (c.instantiate_ok hinstance).2 with hs | ⟨hs, rfl, -⟩
    · rcases Ty.structural?_ok hs with ⟨-, rank, elem, rfl, rfl⟩ | ⟨-, elem, rfl, rfl⟩ |
        ⟨-, elem, rfl, rfl⟩
      -- What stands in for a structural type is written as that type, and reading builds it
      -- directly. No definition has to be instantiated for it.
      · cases hcovers with
        | array _ helem =>
          obtain ⟨n, hn⟩ := ih elem (by simp) helem
          exact ⟨n, fun fuel hfuel => by rw [expr, Expr.toClosed, hn fuel hfuel]; rfl⟩
      · cases hcovers with
        | pointer helem =>
          obtain ⟨n, hn⟩ := ih elem (by simp) helem
          exact ⟨n, fun fuel hfuel => by rw [expr, Expr.toClosed, hn fuel hfuel]; rfl⟩
      · cases hcovers with
        | byRef helem =>
          obtain ⟨n, hn⟩ := ih elem (by simp) helem
          exact ⟨n, fun fuel hfuel => by rw [expr, Expr.toClosed, hn fuel hfuel]; rfl⟩
    · cases hcovers with
      | named hd hts =>
        have hargs' : List.Forall₂ (fun e a => ∃ n, ∀ fuel, n ≤ fuel →
            e.toClosed c fuel = some (.ok a)) (c.exprAll (args.map storedArg)) args := by
          rw [exprAll_eq_map, List.map_map, List.forall₂_map_left_iff]
          refine List.forall₂_same.mpr fun a ha => ?_
          obtain ⟨n, hn⟩ := ih a ha (hts _ (List.mem_map_of_mem ha)).of_storedArg
          exact ⟨n, fun fuel hfuel =>
            toClosed_expr_storedArg hc (hn fuel hfuel) (hargs a ha).isClosed⟩
        obtain ⟨n, hn⟩ := toClosedAll_eq_ok hargs'
        refine ⟨max n fuel₀, fun fuel hfuel => ?_⟩
        have hall := hn fuel (Nat.le_trans (Nat.le_max_left n fuel₀) hfuel)
        have hinstance := (c.instantiate_le (Nat.le_trans (Nat.le_max_right n fuel₀) hfuel) d
          args).eq_some hinstance
        have hfind := hc.find?_nameWithoutArity hd (c.length_of_instantiate hinstance)
        rw [expr, Expr.toClosed, exprAll_eq_map, List.length_map, List.length_map, hfind,
          ← exprAll_eq_map]
        simp only [hall, hinstance]
        rfl

end Catalog

/-! ## The types of a configuration

What has been shown for well-named catalogs holds of the catalogs of configurations, if the names in
them are plain. -/

/-- A type with a name of letters, digits, underscores and points, or without any name. -/
def TypeEntry.HasPlainName (e : TypeEntry) : Prop :=
  (e.name.toList.all fun ch => ch.isAlphanum || ch == '_' || ch == '.') = true

/-- All characters of a plain name may stand in names. -/
theorem TypeEntry.HasPlainName.isNameChar {e : TypeEntry} (h : e.HasPlainName) :
    ∀ ch ∈ e.name.toList, Lexeme.isNameChar ch = true := fun ch hch =>
  Bool.or_eq_true_iff.mpr (.inl (List.all_eq_true.mp h ch hch))

/-- There is no back-tick in a plain name. -/
theorem TypeEntry.HasPlainName.not_mem {e : TypeEntry} (h : e.HasPlainName) :
    aritySeparator ∉ e.name.toList := fun hmem =>
  absurd (List.all_eq_true.mp h aritySeparator hmem) (by decide)

namespace Config

open Catalog

variable {config : Config} {c : Catalog}

/-- The definitions of a configuration can be called by their names. -/
theorem isName_of_catalog (h : config.catalog = .ok c)
    (hnames : ∀ e ∈ config.types, e.HasPlainName ∧ e.name ≠ "") :
    ∀ d < c.defs.length, IsName (nameWithoutArity (c.name d)) := by
  intro d hd
  have hmem : c.definition d ∈ c.defs := getElem_definition hd ▸ List.getElem_mem hd
  rcases exists_of_mem_defs h hmem with ⟨s, hs, hlabel⟩ | ⟨e, he, hlabel⟩
  · have hstandIns : ∀ s ∈ standIns, nameWithoutArity s.name ≠ "" ∧
        (nameWithoutArity s.name).toList.all Lexeme.isNameChar = true := by decide
    rw [Catalog.name, (Prod.mk.inj hlabel).1]
    exact ⟨(hstandIns s hs).1, List.all_eq_true.mp (hstandIns s hs).2⟩
  · obtain ⟨hplain, hne⟩ := hnames e he
    rw [Catalog.name, (Prod.mk.inj hlabel).1, (TypeEntry.goesBy hplain.not_mem).nameWithoutArity]
    exact ⟨hne, hplain.isNameChar⟩

/-- **What is written is read again.** In a catalog of types that have plain names, every type that
applies the definitions at their arity is read from what it is written as, parameters included; and
so is every canonical type, for which what is read is instantiated again. -/
theorem render_read (h : config.catalog = .ok c)
    (hnames : ∀ e ∈ config.types, e.HasPlainName ∧ e.name ≠ "") :
    (∀ t, c.AtArity Expr.indexLimit t → c.Covers t → c.readOpen (c.render t) = .ok t) ∧
      ∀ t, c.Canonical t → c.Covers t →
        ∃ n, ∀ fuel, n ≤ fuel → c.readClosed fuel (c.render t) = some (.ok t) := by
  have hnames' := isName_of_catalog h hnames
  have hc := wellNamed_of_catalog h fun e he => (hnames e he).1.not_mem
  have hparse : ∀ t n, n ≤ Expr.indexLimit → c.AtArity n t → c.Covers t →
      Expr.parse (c.render t) = .ok (c.expr t) := fun t n hn harity hcovers =>
    Expr.parse_eq_ok_iff.mpr ⟨writes_render hnames' hcovers,
      fun i hi => Nat.lt_of_lt_of_le (harity.indices_expr i hi) hn⟩
  refine ⟨fun t harity hcovers => ?_, fun t hcanonical hcovers => ?_⟩
  · rw [readOpen, hparse t _ (Nat.le_refl _) harity hcovers]
    exact toOpen_expr hc harity hcovers
  · obtain ⟨n, hn⟩ := hcanonical.toClosed_expr hc hcovers
    refine ⟨n, fun fuel hfuel => ?_⟩
    rw [readClosed, hparse t 0 (Nat.zero_le _) hcanonical.atArity hcovers]
    exact hn fuel hfuel

/-- Among the lists that arrays are, an open array of lists and a list of pointers are read from
what they are written as. -/
theorem render_read_arraysAsLists :
    (∀ e ∈ arraysAsLists.types, e.HasPlainName ∧ e.name ≠ "") ∧
      arraysAsListsCatalog.readOpen (arraysAsListsCatalog.render (.array 2 (.named 8 [.param 0]))) =
        .ok (.array 2 (.named 8 [.param 0])) ∧
      ∃ n, ∀ fuel, n ≤ fuel →
        arraysAsListsCatalog.readClosed fuel
            (arraysAsListsCatalog.render (.named 8 [storedArg (.pointer (.nominal 9))])) =
          some (.ok (.named 8 [storedArg (.pointer (.nominal 9))])) := by
  have hnames : ∀ e ∈ arraysAsLists.types, e.HasPlainName ∧ e.name ≠ "" := by
    unfold TypeEntry.HasPlainName
    decide
  have hread := render_read arraysAsLists_catalog hnames
  have hint : arraysAsListsCatalog.Canonical (.nominal 9) := canonical_nominal rfl
  have hlist : arraysAsListsCatalog.Canonical (.named 8 [storedArg (.pointer (.nominal 9))]) :=
    hint.pointer.generic 8 rfl rfl
  refine ⟨hnames, hread.1 _ ?_ ?_, hread.2 _ hlist ?_⟩
  · exact .array (.named rfl (List.forall_mem_singleton.mpr (.param (by decide))))
  · exact .array 1 (.named (by decide) (List.forall_mem_singleton.mpr (.param 0)))
  · have hcovers : arraysAsListsCatalog.Covers (.nominal 9) := .named (by decide) (by simp)
    exact .named (by decide) (List.forall_mem_singleton.mpr
      (.named (by decide) (List.forall_mem_singleton.mpr hcovers)))

/-- A configuration with one type, which has no name. -/
def namelessType : Config where
  types := [{ name := "", kind := .classType, params := [], base := none, interfaces := [] }]

/-- Its definitions. -/
def namelessDefs : List Definition := [{ name := "" }]

/-- The configuration with the nameless type has a catalog. -/
theorem namelessType_catalog : namelessType.catalog = .ok (ofDefs namelessDefs) := by
  have hheaders : namelessType.headers = ofDefs namelessDefs := by
    simp only [namelessType, headers, List.map_cons, TypeEntry.header, TypeEntry.registeredName]
    rfl
  refine catalog_eq_ok_iff.mpr ⟨?_, namelessDefs, (none, []), ?_, rfl, rfl⟩
  · rw [hheaders, UniquelyNamed]
    decide
  · rw [hheaders]
    refine .cons ?_ .nil
    simp only [TypeEntry.read, TypeEntry.header, TypeEntry.registeredName]
    rfl

/-- **A type without a name cannot be read.** It is written as nothing, and that is no
expression. -/
theorem namelessType_not_read : ∃ c, namelessType.catalog = .ok c ∧
    (∀ e ∈ namelessType.types, e.HasPlainName) ∧
      c.AtArity Expr.indexLimit (.nominal 8) ∧ c.Canonical (.nominal 8) ∧ c.Covers (.nominal 8) ∧
      c.readOpen (c.render (.nominal 8)) ≠ .ok (.nominal 8) ∧
      ∀ fuel, c.readClosed fuel (c.render (.nominal 8)) ≠ some (.ok (.nominal 8)) := by
  have hparse : Expr.parse ((ofDefs namelessDefs).render (.nominal 8)) =
      .error ⟨.expectedType, 0, 0⟩ := by
    have hrender : (ofDefs namelessDefs).render (.nominal 8) = "" := by decide
    have hlexemes : lexemes "" = [] := by
      rw [lexemes, String.toList_empty, Lexeme.scan]
    rw [hrender, Expr.parse, hlexemes]
    rfl
  have hplain : ∀ e ∈ namelessType.types, e.HasPlainName := by
    unfold TypeEntry.HasPlainName
    decide
  have hnominal : (ofDefs namelessDefs).Canonical (.nominal 8) := canonical_nominal rfl
  refine ⟨_, namelessType_catalog, hplain, .named rfl (by simp), hnominal,
    .named (by decide) (by simp), ?_, fun fuel => ?_⟩
  · rw [readOpen, hparse]
    exact fun h => by cases h
  · rw [readClosed, hparse]
    exact fun h => by cases h

end Config

end TypeResolution
