import TypeResolution.Proofs.Catalog.Declarations

/-!
# Acyclic hierarchies and finite ones

A hierarchy is acyclic if its definitions can be ranked so that whatever one declares to inherit
from is an instance of a lower one. Arrays have the rank of their stand-in. A bare parameter is not
lower than anything, since an instance of the definition itself may be put in for it.

Inheriting then leads strictly downwards (`Acyclic.eq_or_level_lt`), and a type inherits no other
type of its own level. So not even a walk that forgets where it has been goes on forever
(`Acyclic.lineageEnds`). The walk over the ancestors has a memory, and ends in some hierarchies with
circles as well: it is enough that a type inherits from finitely many (`ancestorsEnd_of_closed`).

The rank is any function into the natural numbers, so finding one for a given catalog is a finite
computation: one inequality for each declaration. For the base library the number of a definition
already is a rank, except that the array stand-in comes first and has to be put on top
(`baseLibrary_acyclic`).
-/

namespace TypeResolution.Catalog

open Relation

/-- Every declared type is an instance of a definition of lower rank than what declares it. -/
structure Acyclic (c : Catalog) (rank : DefIndex → Nat) : Prop where
  /-- the bases and interfaces of definitions -/
  declared : ∀ d, ∀ s ∈ c.declared d, ∃ e ∈ s.head?, rank e < rank d
  /-- the base of arrays -/
  arrayBase : ∀ s ∈ c.arrayBase, ∃ e ∈ s.head?, rank e < rank Marker.array.definition
  /-- the interfaces of arrays -/
  arrayInterfaces : ∀ s ∈ c.arrayInterfaces, ∃ e ∈ s.head?, rank e < rank Marker.array.definition

/-- The rank of the definition that a type is an instance of, above that of a parameter. -/
def level (rank : DefIndex → Nat) (t : Ty) : Nat := t.head?.elim 0 fun d => rank d + 1

/-- The level of a type depends on its definition only. -/
theorem level_eq_of_head? (rank : DefIndex → Nat) {s t : Ty} (h : s.head? = t.head?) :
    level rank s = level rank t := by
  rw [level, level, h]

variable {c : Catalog} {rank : DefIndex → Nat}

/-- What is declared lower stays lower whatever is put in for its parameters. -/
theorem level_subst_lt {s : Ty} {bound : Nat} (h : ∃ e ∈ s.head?, rank e < bound) (σ : List Ty) :
    level rank (s.subst σ) < bound + 1 := by
  obtain ⟨e, he, hlt⟩ := h
  have hne : ∀ i, s ≠ .param i := by
    rintro i rfl
    cases he
  rw [level, head?_subst hne, he, Option.elim_some]
  omega

/-- One step of inheriting leads strictly down. -/
theorem Acyclic.level_lt_of_step (hc : c.Acyclic rank) {t b : Ty}
    (h : c.HasBase t b ∨ c.Declares t b) : level rank b < level rank t := by
  rcases step_cases h with ⟨d, ts, s, rfl, hs, rfl⟩ | ⟨n, elem, rfl, hb | ⟨-, s, hs, rfl⟩⟩
  · exact level_subst_lt (hc.declared d s hs) ts
  · obtain ⟨e, he, hlt⟩ := hc.arrayBase b hb
    rw [level, he, Option.elim_some]
    exact Nat.succ_lt_succ hlt
  · exact level_subst_lt (hc.arrayInterfaces s hs) [elem]

/-- **Inheriting leads downwards**: what a type inherits is the type itself or of a lower level. -/
theorem Acyclic.eq_or_level_lt (hc : c.Acyclic rank) {t a : Ty} (h : c.Inherits t a) :
    a = t ∨ level rank a < level rank t := by
  have hstep : ∀ s b, s = t ∨ level rank s < level rank t → c.HasBase s b ∨ c.Declares s b →
      b = t ∨ level rank b < level rank t := by
    rintro s b hs hb
    have hlt := hc.level_lt_of_step hb
    rcases hs with rfl | hs
    · exact .inr hlt
    · exact .inr (Nat.lt_trans hlt hs)
  exact h.induction (.inl rfl) (fun s b hs hb => hstep s b hs (.inl hb))
    fun s i hs hi => hstep s i hs (.inr hi)

/-- Inheriting never leads up. -/
theorem Acyclic.level_le (hc : c.Acyclic rank) {t a : Ty} (h : c.Inherits t a) :
    level rank a ≤ level rank t := by
  rcases hc.eq_or_level_lt h with rfl | hlt
  · exact Nat.le_refl _
  · exact Nat.le_of_lt hlt

/-- The definitions of the base library inherit from earlier ones, and arrays from all of these. -/
theorem baseLibrary_acyclic :
    baseLibrary.Acyclic fun d => if d = Marker.array.definition then 100 else d where
  declared := baseLibrary.forall_declared (by decide)
  arrayBase := by decide
  arrayInterfaces := by decide

/-! ## From walks to ancestors

The relation `Walk` has no fuel: it says which list a walk ends with. So there are two things to
show of a walk, that it exists and that the fueled walk then finds it with enough fuel. -/

/-- A walk over some types and then over others is a walk over all of them. -/
theorem Walk.append {found pending mid rest all : List Ty} (h : c.Walk found pending mid)
    (hrest : c.Walk mid rest all) : c.Walk found (pending ++ rest) all := by
  induction h with
  | done found => exact hrest
  | skip ht _ ih => exact .skip ht (ih hrest)
  | visit ht _ ih =>
    have hthen := ih hrest
    rw [List.append_assoc] at hthen
    exact .visit ht hthen

/-- Whatever a walk ends with is what the recursion on fuel lists, given enough. -/
theorem Walk.exists_addInterfaces {found pending all : List Ty} (h : c.Walk found pending all) :
    ∃ fuel, c.addInterfaces fuel found pending = some all := by
  induction h with
  | done found => exact ⟨0, by rw [addInterfaces]⟩
  | skip ht _ ih =>
    obtain ⟨fuel, hall⟩ := ih
    exact ⟨fuel + 1, by rw [addInterfaces, if_pos ht, hall]⟩
  | visit ht _ ih =>
    obtain ⟨fuel, hall⟩ := ih
    exact ⟨fuel + 1, by rw [addInterfaces, if_neg ht, hall]⟩

/-- The ancestors are put together from what the walks over the bases and over the interfaces
list. -/
theorem exists_ancestors_of_walk {t : Ty} {n : Nat} {bases found : List Ty}
    (hbases : c.basesFrom n [t] t = some bases)
    (hwalk : c.Walk [t] ((t :: bases).flatMap c.declaredInterfaces) found) :
    ∃ fuel, c.ancestors fuel t = some (found ++ unlisted found bases) := by
  obtain ⟨m, hfound⟩ := hwalk.exists_addInterfaces
  have hbases' := (c.basesFrom_le (Nat.le_max_left n m) [t] t).eq_some hbases
  have hfound' := (c.addInterfaces_le (Nat.le_max_right n m) [t] _).eq_some hfound
  refine ⟨max n m, ?_⟩
  rw [ancestors, Catalog.bases, hbases']
  dsimp only
  rw [hfound']

/-! ## Finitely many types

A hierarchy need not be acyclic for the walks to end, since no type is visited twice. It is enough
that what a type inherits is among finitely many types: each visit leaves one unlisted type less. -/

/-- Listing one of the types leaves fewer unlisted. -/
theorem length_unlisted_lt {found found' ts : List Ty} {t : Ty} (hsub : ∀ s ∈ found, s ∈ found')
    (ht : t ∈ ts) (hnew : t ∉ found) (hfound : t ∈ found') :
    (unlisted found' ts).length < (unlisted found ts).length := by
  have hsublist : (unlisted found' ts).Sublist (unlisted found ts) :=
    List.monotone_filter_right ts fun s hs => by
      simp only [decide_eq_true_eq] at hs ⊢
      exact fun hmem => hs (hsub s hmem)
  have hmem : t ∈ unlisted found ts := List.mem_filter.mpr ⟨ht, decide_eq_true hnew⟩
  have hnot : t ∉ unlisted found' ts :=
    fun hmem => of_decide_eq_true (List.mem_filter.mp hmem).2 hfound
  refine Nat.lt_of_le_of_ne hsublist.length_le fun hlength => hnot ?_
  rw [hsublist.eq_of_length hlength]
  exact hmem

/-- The walk up the bases of one of finitely many types whose bases are among them ends. -/
theorem exists_basesFrom_of_closed {ts : List Ty}
    (hts : ∀ s ∈ ts, ∀ b, c.HasBase s b → b ∈ ts) {t : Ty} (ht : t ∈ ts) (seen : List Ty) :
    ∃ fuel bases, c.basesFrom fuel seen t = some bases := by
  -- The chain stops at a base that it has seen. A base that is new is listed from then on, and this
  -- is why the number of unlisted types decreases.
  induction hn : (unlisted seen ts).length using Nat.strongRecOn generalizing t seen with
  | ind n ih =>
    subst hn
    cases hbase : c.declaredBase? t with
    | none => exact ⟨1, [], by rw [basesFrom, hbase]⟩
    | some base =>
      by_cases hseen : base ∈ seen
      · exact ⟨1, [], by rw [basesFrom, hbase]; exact if_pos hseen⟩
      · have hmem := hts t ht base hbase
        obtain ⟨fuel, bases, hbases⟩ := ih _ (length_unlisted_lt
          (fun s => List.mem_cons_of_mem base) hmem hseen List.mem_cons_self) hmem _ rfl
        refine ⟨fuel + 1, base :: bases, ?_⟩
        rw [basesFrom, hbase]
        dsimp only
        rw [if_neg hseen, hbases, Option.map_some]

/-- The walk over the interfaces of finitely many types whose interfaces are among them ends. -/
theorem exists_walk_of_closed {ts : List Ty} (hts : ∀ s ∈ ts, ∀ i, c.Declares s i → i ∈ ts)
    (found pending : List Ty) (hpending : ∀ t ∈ pending, t ∈ ts) :
    ∃ all, c.Walk found pending all := by
  induction hn : (unlisted found ts).length using Nat.strongRecOn generalizing found pending with
  | ind n ih =>
    subst hn
    -- For the same set of listed types, those that are pending are worked off one after another. A
    -- type that was listed before is passed over, and only a new one has its interfaces put in
    -- front, with one unlisted type less.
    induction pending with
    | nil => exact ⟨found, .done found⟩
    | cons t rest ihrest =>
      obtain ⟨ht, hrest⟩ := List.forall_mem_cons.mp hpending
      by_cases hfound : t ∈ found
      · obtain ⟨all, hall⟩ := ihrest hrest
        exact ⟨all, .skip hfound hall⟩
      · have hnext : ∀ s ∈ c.declaredInterfaces t ++ rest, s ∈ ts := fun s hs =>
          (List.mem_append.mp hs).elim (fun hs => hts t ht s hs) (hrest s)
        obtain ⟨all, hall⟩ := ih _ (length_unlisted_lt
          (fun s => List.mem_append_left [t]) ht hfound (by simp)) (found ++ [t]) _ hnext rfl
        exact ⟨all, .visit hfound hall⟩

/-- The two walks over what a type inherits end if there are finitely many types of which one is the
type and which hold the bases of all of them, and finitely many that hold all interfaces. -/
theorem ancestorsEnd_of_closed {chain ts : List Ty}
    (hchain : ∀ s ∈ chain, ∀ b, c.HasBase s b → b ∈ chain)
    (hts : ∀ s ∈ ts, ∀ i, c.Declares s i → i ∈ ts) (hsub : ∀ s ∈ chain, s ∈ ts) {t : Ty}
    (ht : t ∈ chain) : c.AncestorsEnd t := by
  obtain ⟨n, bases, hbases⟩ := exists_basesFrom_of_closed hchain ht [t]
  have hlinks : ∀ {b : Ty}, ReflTransGen c.HasBase t b → b ∈ chain := by
    intro b hb
    induction hb with
    | refl => exact ht
    | tail _ hstep ih => exact hchain _ ih _ hstep
  have hpending : ∀ i ∈ (t :: bases).flatMap c.declaredInterfaces, i ∈ ts := by
    intro i hi
    obtain ⟨link, hlink, hdeclared⟩ := List.mem_flatMap.mp hi
    exact hts link (hsub link (hlinks ((c.mem_bases_iff hbases).mp hlink))) i hdeclared
  obtain ⟨found, hwalk⟩ := exists_walk_of_closed hts [t] _ hpending
  obtain ⟨fuel, habove⟩ := exists_ancestors_of_walk hbases hwalk
  exact ⟨fuel, _, habove⟩

/-- Whatever these types declare is one of them. -/
def SelfContained (c : Catalog) (ts : List Ty) : Prop :=
  ∀ t ∈ ts, ∀ b, c.HasBase t b ∨ c.Declares t b → b ∈ ts

/-- The walk over the ancestors of one of finitely many types that inherit from each other only
comes to its end. -/
theorem SelfContained.ancestorsEnd {ts : List Ty} (hts : c.SelfContained ts) {t : Ty}
    (ht : t ∈ ts) :
    c.AncestorsEnd t :=
  ancestorsEnd_of_closed (fun s hs b hb => hts s hs b (.inl hb))
    (fun s hs i hi => hts s hs i (.inr hi)) (fun _ hs => hs) ht

end TypeResolution.Catalog
