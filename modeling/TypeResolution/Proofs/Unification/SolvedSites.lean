import Mathlib.Data.List.Basic
import Mathlib.Data.List.Forall2
import TypeResolution.Proofs.Catalog.Forms
import TypeResolution.Proofs.Ty.Matching
import TypeResolution.Unification.Sites

/-!
# Sites solved by matching

When all arguments of a target are known, the sites below a candidate are easily described: matching
an open ancestor with the candidate assigns some of the target's parameters, and what it leaves open
is what is known (`solveSite?_known`). A site is therefore written with parts of the candidate and
with the known arguments (`solveSite?_hereditary`). The open type itself gives back the arguments of
the candidate (`solveSite?_openInstance`, `solveSite?_openArray`).

Even if only some arguments are known, an open ancestor has at most one site: the types that make it
the candidate and that agree with what is known where it mentions nothing
(`solveSite?_eq_some_iff`).

Both descriptions are read off what matching is known to do: it is sound and complete for the lists
that fill an assignment, and it learns about the mentioned parameters only. A site is such a list,
with no parameter left open.
-/

namespace TypeResolution

namespace Ty

/-! ## What matching assigns

Matching takes what it assigns out of the actual type. So whatever property the parts of that type
have, the entries of the assignment have it as well. -/

mutual
/-- Matching assigns only what stands inside the actual type. -/
theorem assign?_hereditary {P : Ty → Prop} (hP : Hereditary P) : (pattern : Ty) →
    {actual : Ty} → {σ σ' : Assignment} → P actual →
    (∀ x, some x ∈ σ → P x) → assign? pattern actual σ = some σ' →
      σ'.length = σ.length ∧ ∀ x, some x ∈ σ' → P x
  | .param i, actual, σ, σ', hactual, hσ, h => by
    rw [assign?] at h
    split at h
    · cases h
    · obtain rfl := Option.some.inj h
      refine ⟨List.length_set, fun x hx => ?_⟩
      rcases List.mem_or_eq_of_mem_set hx with hx | hx
      · exact hσ x hx
      · exact Option.some.inj hx ▸ hactual
    · split at h
      · exact Option.some.inj h ▸ ⟨rfl, hσ⟩
      · cases h
  | .named d ts, actual, σ, σ', hactual, hσ, h => by
    cases actual with
    | named e us =>
      rw [assign?] at h
      split at h
      · exact assignAll?_hereditary hP ts (hP.named e us hactual) hσ h
      · cases h
    | _ => cases h
  | .array m t, actual, σ, σ', hactual, hσ, h => by
    cases actual with
    | array n u =>
      rw [assign?] at h
      split at h
      · exact assign?_hereditary hP t (hP.array n u hactual) hσ h
      · cases h
    | _ => cases h
  | .pointer t, actual, σ, σ', hactual, hσ, h => by
    cases actual with
    | pointer u =>
      rw [assign?] at h
      exact assign?_hereditary hP t (hP.pointer u hactual) hσ h
    | _ => cases h
  | .byRef t, actual, σ, σ', hactual, hσ, h => by
    cases actual with
    | byRef u =>
      rw [assign?] at h
      exact assign?_hereditary hP t (hP.byRef u hactual) hσ h
    | _ => cases h

/-- The same for lists of patterns. -/
theorem assignAll?_hereditary {P : Ty → Prop} (hP : Hereditary P) : (patterns : List Ty) →
    {actuals : List Ty} → {σ σ' : Assignment} →
    (∀ u ∈ actuals, P u) → (∀ x, some x ∈ σ → P x) → assignAll? patterns actuals σ = some σ' →
      σ'.length = σ.length ∧ ∀ x, some x ∈ σ' → P x
  | [], actuals, σ, σ', _, hσ, h => by
    rw [assignAll?] at h
    · exact Option.some.inj h ▸ ⟨rfl, hσ⟩
    · exact nofun
  | t :: ts, actuals, σ, σ', hactuals, hσ, h => by
    cases actuals with
    | nil =>
      rw [assignAll?] at h
      · exact Option.some.inj h ▸ ⟨rfl, hσ⟩
      · exact nofun
    | cons u us =>
      rw [assignAll?] at h
      -- What the first pattern has learned is kept for the others.
      obtain ⟨τ, hτ, h⟩ := Option.bind_eq_some_iff.mp h
      obtain ⟨hu, hus⟩ := List.forall_mem_cons.mp hactuals
      obtain ⟨hlength, hτP⟩ := assign?_hereditary hP t hu hσ hτ
      obtain ⟨hlength', hσ'⟩ := assignAll?_hereditary hP ts hus hτP h
      exact ⟨hlength'.trans hlength, hσ'⟩
end

/-- Parameters in order are assigned what stands at their positions. -/
theorem assignAll?_params (before us : List Ty) :
    assignAll? ((List.range' before.length us.length).map .param) us
        (before.map some ++ List.replicate us.length none) =
      some ((before ++ us).map some) := by
  induction us generalizing before with
  | nil => simp [assignAll?]
  | cons u us ih =>
    -- the parameter after those before is free, and it takes the next type
    have hfree : (before.map some ++ List.replicate (us.length + 1) none)[before.length]? =
        some (none : Option Ty) := by
      simp [List.replicate_succ]
    have hset :
        (before.map some ++ List.replicate (us.length + 1) none).set before.length (some u) =
        (before ++ [u]).map some ++ List.replicate us.length none := by
      simp [List.replicate_succ]
    have h := ih (before ++ [u])
    rw [List.length_append, List.length_singleton, List.append_assoc, List.singleton_append] at h
    rw [List.length_cons, List.range'_succ, List.map_cons, assignAll?, assign?, hfree]
    dsimp only
    rw [hset, Option.bind_some]
    exact h

/-- A rank has no parameters, so matching it with itself learns nothing. -/
theorem assign?_rankEncoding (n : Nat) (σ : Assignment) :
    assign? (rankEncoding n) (rankEncoding n) σ = some σ := by
  induction n with
  | zero => rfl
  | succ n ih =>
    rw [rankEncoding, assign?, if_pos ⟨rfl, rfl⟩, assignAll?, ih]
    rfl

end Ty

/-! ## Sites for known arguments

A site takes an entry from the assignment where there is one, and from what is known otherwise. If
neither has one, then there is no site. -/

/-- If all arguments are known, a site takes from them whatever matching leaves open. -/
theorem solveSite?_known (actual ts : List Ty) (ancestor : Ty) :
    solveSite? actual (ts.map some) ancestor =
      if ancestor.headArgs.length = actual.length then
        (Ty.assignAll? ancestor.headArgs actual (List.replicate ts.length none)).map fun solved =>
          (solved.zip ts).map fun p => p.1.getD p.2
      else none := by
  -- With everything known there is always one or the other.
  have hmapM : ∀ (solved : Assignment) (ts : List Ty),
      (solved.zip (ts.map some)).mapM (fun p => p.1 <|> p.2) =
        some ((solved.zip ts).map fun p => p.1.getD p.2) := by
    intro solved
    induction solved with
    | nil => intro ts; rfl
    | cons x solved ih =>
      intro ts
      cases ts with
      | nil => rfl
      | cons t ts =>
        rw [List.map_cons, List.zip_cons_cons, List.zip_cons_cons, List.mapM_cons, ih ts]
        cases x <;> rfl
  rw [solveSite?]
  split
  · rw [List.map_map, show (fun _ => none) ∘ some = fun _ : Ty => (none : Option Ty) from rfl,
      List.map_const', Option.map_eq_bind]
    congr 1
    funext solved
    exact hmapM solved ts
  · rfl

/-- All lookups of a list succeed exactly if each gives what stands beside it among the results. -/
theorem mapM_eq_some_iff {α β : Type} {f : α → Option β} {as : List α} {bs : List β} :
    as.mapM f = some bs ↔ List.Forall₂ (fun a b => f a = some b) as bs := by
  induction as generalizing bs with
  | nil =>
    rw [List.mapM_nil, List.forall₂_nil_left_iff]
    exact Option.some_inj.trans eq_comm
  | cons a as ih =>
    rw [List.mapM_cons]
    constructor
    · intro h
      obtain ⟨b, hb, h⟩ := Option.bind_eq_some_iff.mp h
      obtain ⟨rest, hrest, h⟩ := Option.bind_eq_some_iff.mp h
      exact Option.some.inj h ▸ .cons hb (ih.mp hrest)
    · rintro (_ | ⟨hb, hrest⟩)
      rw [hb, ih.mpr hrest]
      rfl

/-- Completing what was solved from what is known gives a type for each parameter: the solved one,
or the known one where nothing was solved. -/
theorem mapM_orElse_eq_some_iff {solved known : Assignment} (hlength : solved.length = known.length)
    {site : Site} :
    (solved.zip known).mapM (fun p => p.1 <|> p.2) = some site ↔
      site.length = known.length ∧ ∀ (i : Nat) (t : Ty), site[i]? = some t →
        solved[i]? = some (some t) ∨ solved[i]? = some none ∧ known[i]? = some (some t) := by
  -- Entry by entry: the first that is there is taken.
  have hchoice : ∀ (x y : Option Ty) (t : Ty),
      (x <|> y) = some t ↔ x = some t ∨ x = none ∧ y = some t := by
    intro x y t
    cases x <;> simp
  have hzip : (solved.zip known).length = known.length := by
    rw [List.length_zip, hlength, Nat.min_self]
  have hsame : (solved.zip known).length = site.length ↔ site.length = known.length := by
    rw [hzip, eq_comm]
  rw [mapM_eq_some_iff, List.forall₂_iff_get, hsame]
  refine and_congr_right fun hsite => ?_
  simp only [List.get_eq_getElem, List.getElem_zip, hchoice]
  constructor
  · intro h i t ht
    obtain ⟨hi, rfl⟩ := List.getElem?_eq_some_iff.mp ht
    have hi' : i < known.length := hsite ▸ hi
    simpa [hlength, hi'] using h i (hzip.symm ▸ hi') hi
  · intro h i hi hi'
    have hknown : i < known.length := hzip ▸ hi
    simpa [hlength, hknown] using h i _ (List.getElem?_eq_getElem hi')

/-- A site is found by matching the open ancestor with the candidate and completing what is solved
from what is known. -/
theorem solveSite?_eq_some {actual : List Ty} {known : Assignment} {ancestor : Ty} {site : Site}
    (h : solveSite? actual known ancestor = some site) :
    ∃ solved, ancestor.headArgs.length = actual.length ∧
      Ty.assignAll? ancestor.headArgs actual (List.replicate known.length none) = some solved ∧
      site.length = known.length ∧ solved.FilledBy site ∧
      ∀ (i : Nat) (t : Ty), site[i]? = some t →
        solved[i]? = some (some t) ∨ solved[i]? = some none ∧ known[i]? = some (some t) := by
  rw [solveSite?, List.map_const'] at h
  split at h
  · next hlength =>
    obtain ⟨solved, hsolved, h⟩ := Option.bind_eq_some_iff.mp h
    have hadds := (Ty.assignAll?_adds _ hlength hsolved).length_eq
    rw [List.length_replicate] at hadds
    obtain ⟨hsite, hall⟩ := (mapM_orElse_eq_some_iff hadds).mp h
    refine ⟨solved, hlength, hsolved, hsite, ⟨hsite.trans hadds.symm, fun i t hi => ?_⟩, hall⟩
    obtain ⟨hlt, -⟩ := List.getElem?_eq_some_iff.mp hi
    have hisite : i < site.length := by omega
    have hget : site[i]? = some site[i] := List.getElem?_eq_getElem hisite
    rcases hall i _ hget with hi' | ⟨hi', -⟩
    · rw [hget, ← Option.some.inj (hi'.symm.trans hi)]
    · rw [hi'] at hi
      cases hi
  · cases h

/-- A site has as many arguments as the target has sub-constraints, and it is written with parts of
the candidate and with what is known. -/
theorem solveSite?_parts {P : Ty → Prop} (hP : Ty.Hereditary P) {actual : List Ty}
    {known : Assignment} (hactual : ∀ x ∈ actual, P x) (hknown : ∀ x, some x ∈ known → P x)
    {ancestor : Ty} {site : Site} (h : solveSite? actual known ancestor = some site) :
    site.length = known.length ∧ ∀ x ∈ site, P x := by
  obtain ⟨solved, -, hsolved, hsite, -, hall⟩ := solveSite?_eq_some h
  refine ⟨hsite, fun x hx => ?_⟩
  have hopen : ∀ x, some x ∈ List.replicate known.length (none : Option Ty) → P x := fun x hx => by
    cases List.eq_of_mem_replicate hx
  obtain ⟨i, hi⟩ := List.mem_iff_getElem?.mp hx
  rcases hall i x hi with hx | ⟨-, hx⟩
  · exact (Ty.assignAll?_hereditary hP _ hactual hopen hsolved).2 x (List.mem_of_getElem? hx)
  · exact hknown x (List.mem_of_getElem? hx)

/-- A site for known arguments is as long as they are, and it is written with parts of the
candidate and with them. -/
theorem solveSite?_hereditary {P : Ty → Prop} (hP : Ty.Hereditary P) {actual ts : List Ty}
    (hactual : ∀ x ∈ actual, P x) (hts : ∀ x ∈ ts, P x) {ancestor : Ty} {site : Site}
    (h : solveSite? actual (ts.map some) ancestor = some site) :
    site.length = ts.length ∧ ∀ x ∈ site, P x := by
  have hknown : ∀ x, some x ∈ ts.map some → P x := by
    intro x hx
    obtain ⟨t, ht, heq⟩ := List.mem_map.mp hx
    exact Option.some.inj heq ▸ hts t ht
  have hparts := solveSite?_parts hP hactual hknown h
  rwa [List.length_map] at hparts

/-- **A site turns the open ancestor into the candidate.** -/
theorem solveSite?_sound {actual : List Ty} {known : Assignment} {ancestor : Ty} {site : Site}
    (h : solveSite? actual known ancestor = some site) :
    ancestor.headArgs.map (Ty.subst site) = actual := by
  obtain ⟨solved, hlength, hsolved, -, hfilled, -⟩ := solveSite?_eq_some h
  exact (Ty.assignAll?_sound _ hlength hsolved hfilled).1

/-- **The site of an open ancestor is the one list of types that makes it the candidate** and that
takes, for the parameters which the ancestor does not mention, what is known of them. -/
theorem solveSite?_eq_some_iff {actual : List Ty} {known : Assignment} {ancestor : Ty}
    (hparams : Ty.allParamsBelow known.length ancestor.headArgs = true) {site : Site} :
    solveSite? actual known ancestor = some site ↔
      site.length = known.length ∧ ancestor.headArgs.map (Ty.subst site) = actual ∧
        ∀ (i : Nat) (t : Ty), site[i]? = some t → Ty.anyMentions i ancestor.headArgs = false →
          known[i]? = some (some t) := by
  constructor
  · intro h
    obtain ⟨solved, hlength, hsolved, hsite, -, hall⟩ := solveSite?_eq_some h
    refine ⟨hsite, solveSite?_sound h, fun i t hi hnot => ?_⟩
    rcases hall i t hi with hi' | ⟨-, hi'⟩
    · -- nothing is solved for a parameter that the ancestor does not mention
      rw [(Ty.assignAll?_adds _ hlength hsolved).others i hnot] at hi'
      simp [List.getElem?_replicate] at hi'
    · exact hi'
  · rintro ⟨hsite, hsubst, hknown⟩
    have hlength : ancestor.headArgs.length = actual.length := by rw [← hsubst, List.length_map]
    rw [← hsite] at hparams
    obtain ⟨solved, hsolved, hfilled⟩ := Ty.assignAll?_complete ancestor.headArgs
      (Assignment.filledBy_replicate site) hsubst hparams
    have hadds := Ty.assignAll?_adds _ hlength hsolved
    rw [solveSite?, if_pos hlength, List.map_const', ← hsite, hsolved, Option.bind_some]
    refine (mapM_orElse_eq_some_iff (hfilled.length_eq.symm.trans hsite)).mpr
      ⟨hsite, fun i t hi => ?_⟩
    obtain ⟨hlt, -⟩ := List.getElem?_eq_some_iff.mp hi
    rw [hfilled.length_eq] at hlt
    rcases hsome : solved[i] with _ | u
    · have hnone : solved[i]? = some none := by rw [List.getElem?_eq_getElem hlt, hsome]
      refine .inr ⟨hnone, hknown i t hi ?_⟩
      -- a parameter that the ancestor mentions is solved
      by_contra hmentions
      rw [Bool.not_eq_false] at hmentions
      obtain ⟨u, hu⟩ := hadds.knows i hmentions
      rw [hnone] at hu
      cases hu
    · have hu : solved[i]? = some (some u) := by rw [List.getElem?_eq_getElem hlt, hsome]
      rw [← Option.some.inj ((hfilled.agrees i u hu).symm.trans hi)]
      exact .inl hu

/-- Where everything is assigned, what is known does not matter. -/
theorem zip_map_some_getD (us ts : List Ty) (h : us.length = ts.length) :
    ((us.map some).zip ts).map (fun p => p.1.getD p.2) = us := by
  induction us generalizing ts with
  | nil => rfl
  | cons u us ih =>
    cases ts with
    | nil => cases h
    | cons t ts => simpa using ih ts (Nat.succ.inj h)

/-- A definition over its own parameters is matched with any arguments, and the site is these. -/
theorem solveSite?_openInstance (c : Catalog) (d : DefIndex) (actual ts : List Ty)
    (hactual : actual.length = c.arity d) (hts : ts.length = c.arity d) :
    solveSite? actual (ts.map some) (c.openInstance d) = some actual := by
  have hparams : Ty.assignAll? ((List.range (c.arity d)).map .param) actual
      (List.replicate ts.length none) = some (actual.map some) := by
    have h := Ty.assignAll?_params [] actual
    rw [hactual] at h
    rw [hts, List.range_eq_range']
    exact h
  rw [solveSite?_known, Catalog.openInstance, Ty.headArgs, if_pos (by simp [hactual]), hparams,
    Option.map_some, zip_map_some_getD actual ts (hactual.trans hts.symm)]

/-- The open array of some rank is matched with any array of this rank, and the element is found. -/
theorem solveSite?_openArray (n : Nat) (elem known : Ty) :
    solveSite? [rankEncoding n, elem] ([rankEncoding n, known].map some) (.array n (.param 1)) =
      some [rankEncoding n, elem] := by
  rw [solveSite?_known, if_pos (by simp [Ty.headArgs]), Ty.headArgs, Ty.assignAll?,
    Ty.assign?_rankEncoding]
  rfl

/-- What is written with parts of an array's arguments and reads as the arguments is the arguments:
the form in which a structural element would be stored is larger than all that stands inside. -/
theorem eq_of_solveSite?_array {n : Nat} {elem ancestor rank s : Ty}
    (h : solveSite? [rankEncoding n, elem] ([rankEncoding n, elem].map some) ancestor =
      some [rank, s])
    (hrank : rank.structuralForm = .ok (rankEncoding n)) (hs : s.structuralForm = .ok elem) :
    [rank, s] = [rankEncoding n, elem] := by
  -- The parts of an array are no larger than its element, or they belong to its rank. So no site
  -- can hold something that is read as the array's own element from further up.
  have hP : Ty.Hereditary fun x => sizeOf x ≤ sizeOf elem ∨ ∃ m, x = rankEncoding m :=
    Ty.hereditary_sizeOf_or_rankEncoding (sizeOf elem)
  have hargs : ∀ x ∈ [rankEncoding n, elem],
      sizeOf x ≤ sizeOf elem ∨ ∃ m, x = rankEncoding m := by
    intro x hx
    rcases List.mem_pair.mp hx with rfl | rfl
    · exact .inr ⟨n, rfl⟩
    · exact .inl (Nat.le_refl _)
  have hsite := (solveSite?_hereditary hP hargs hargs h).2
  obtain rfl : rankEncoding n = rank := by
    rcases Ty.structuralForm_ok hrank with hself | ⟨d, args, -, hread⟩
    · exact hself
    · exact absurd hread (Ty.structural?_ne_rankEncoding d args n)
  obtain rfl : elem = s := by
    rcases Ty.structuralForm_ok hs with hself | ⟨d, args, rfl, hread⟩
    · exact hself
    · -- a stand-in for the element would be a part of it, or a rank
      exfalso
      rcases hsite (.named d args) (by simp) with hsize | ⟨m, hm⟩
      · have hlt := Ty.sizeOf_lt_of_structural? hread
        omega
      · exact absurd hread (Ty.structural?_ne_ok_of_rankEncoding hm elem)
  rfl

/-! ## Distinct sites

Removing repetitions keeps the members, and leaves each once. -/

/-- No site is lost. -/
theorem mem_distinctSites {s : Site} {sites : List Site} :
    s ∈ distinctSites sites ↔ s ∈ sites := by
  induction sites with
  | nil => rfl
  | cons r rest ih =>
    rw [distinctSites, List.mem_cons, List.mem_filter, ih, List.mem_cons]
    by_cases hs : s = r <;> simp [hs]

/-- None is repeated. -/
theorem nodup_distinctSites (sites : List Site) : (distinctSites sites).Nodup := by
  induction sites with
  | nil => exact List.nodup_nil
  | cons r rest ih =>
    rw [distinctSites, List.nodup_cons]
    exact ⟨by simp, ih.filter _⟩

end TypeResolution
