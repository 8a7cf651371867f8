import Mathlib.Data.List.Induction
import TypeResolution.Proofs.Catalog.Acyclicity

/-!
# The ancestors as a plain listing

The walk over the ancestors of a type keeps one list of what it has found, for all interfaces of all
bases, and passes over a type that is in this list together with everything behind it. The *lineage*
of a type is listed without such a memory: the type, then for every link of the base chain and every
interface that it declares the tree of interfaces from there on, then the bases. Types that are
reached in several ways are repeated in it, and it exists only where no type inherits from itself.

The two agree (`ancestors_eq_eraseDups_lineage`): the ancestors are the lineage of which every type
is kept where it is listed first. The invariant is that what has been found is `Finished` with
respect to what is still to be walked over: a type that is passed over has its whole tree in the
list already, so what is left out are repetitions only. A type is not finished while its own
interfaces are visited, and here it counts that no tree comes back to its root.

In an acyclic hierarchy every type has a lineage, so there the walk over the ancestors always comes
to its end (`Acyclic.hierarchyEnds`).
-/

namespace TypeResolution

/-! ## Keeping first occurrences

Removing repetitions keeps every element where it stands first. The lemmas here are about doing so
in parts: what was kept of a beginning decides what is kept of the rest. -/

section FirstOccurrences

variable {α β : Type} [BEq α] [LawfulBEq α] [BEq β] [LawfulBEq β]

/-- An element at the end is kept if it has not occurred before. -/
theorem eraseDups_concat (l : List α) (a : α) :
    (l ++ [a]).eraseDups = if a ∈ l then l.eraseDups else l.eraseDups ++ [a] := by
  rw [List.eraseDups_append]
  by_cases ha : a ∈ l
  · simp [ha, List.removeAll]
  · simp [ha, List.removeAll, List.eraseDups_cons]

/-- Nothing is repeated afterwards. -/
theorem nodup_eraseDups (l : List α) : l.eraseDups.Nodup := by
  induction l using List.reverseRecOn with
  | nil => exact List.nodup_nil
  | append_singleton l a ih =>
    rw [eraseDups_concat]
    split
    · exact ih
    · next ha =>
      rw [← List.concat_eq_append]
      exact ih.concat (mt List.mem_eraseDups.mp ha)

/-- Where nothing is repeated, everything is kept. -/
theorem eraseDups_of_nodup {l : List α} (h : l.Nodup) : l.eraseDups = l := by
  induction l using List.reverseRecOn with
  | nil => rfl
  | append_singleton l a ih =>
    rw [← List.concat_eq_append, List.nodup_concat] at h
    obtain ⟨ha, hl⟩ := h
    rw [eraseDups_concat, if_neg ha, ih hl]

/-- Behind a list only what is new in it is kept. -/
theorem eraseDups_append_eq (l k : List α) :
    (l ++ k).eraseDups = l.eraseDups ++ k.eraseDups.removeAll l := by
  induction k using List.reverseRecOn with
  | nil => simp [List.removeAll]
  | append_singleton k a ih =>
    rw [← List.append_assoc, eraseDups_concat, eraseDups_concat, ih]
    by_cases hk : a ∈ k
    · simp [hk]
    · by_cases hl : a ∈ l <;> simp [hk, hl, List.removeAll]

/-- What has occurred before may be dropped at the end. -/
theorem eraseDups_append_of_subset {l k : List α} (h : ∀ a ∈ k, a ∈ l) :
    (l ++ k).eraseDups = l.eraseDups := by
  rw [eraseDups_append_eq, List.removeAll, List.filter_eq_nil_iff.mpr, List.append_nil]
  intro a ha
  simp [h a (List.mem_eraseDups.mp ha)]

/-- Repetitions may be left out of the first part beforehand. -/
theorem eraseDups_eraseDups_append (l k : List α) :
    (l.eraseDups ++ k).eraseDups = (l ++ k).eraseDups := by
  rw [eraseDups_append_eq, eraseDups_append_eq, eraseDups_of_nodup (nodup_eraseDups l)]
  simp [List.removeAll]

/-- The order of what is kept is the order of the first positions. -/
theorem pairwise_idxOf_eraseDups (l : List α) :
    l.eraseDups.Pairwise fun a b => l.idxOf a < l.idxOf b := by
  -- The induction is from the end, since adding an element there does not move the first
  -- occurrences of those before.
  induction l using List.reverseRecOn with
  | nil => exact .nil
  | append_singleton l a ih =>
    have hkept : l.eraseDups.Pairwise fun x y => (l ++ [a]).idxOf x < (l ++ [a]).idxOf y := by
      refine ih.imp_of_mem fun {x y} hx hy hlt => ?_
      rw [List.idxOf_append_of_mem (List.mem_eraseDups.mp hx),
        List.idxOf_append_of_mem (List.mem_eraseDups.mp hy)]
      exact hlt
    rw [eraseDups_concat]
    split
    · exact hkept
    · next ha =>
      refine List.pairwise_append.mpr ⟨hkept, List.pairwise_singleton _ a, fun x hx b hb => ?_⟩
      have hx := List.mem_eraseDups.mp hx
      rw [List.mem_singleton.mp hb, List.idxOf_append_of_mem hx, List.idxOf_append_of_notMem ha]
      exact Nat.lt_of_lt_of_le (List.idxOf_lt_length_of_mem hx) (Nat.le_add_right _ _)

/-- Repetitions may be left out before the elements are mapped, if those that come up are left out
afterwards. -/
theorem eraseDups_map (f : α → β) (l : List α) :
    (l.map f).eraseDups = (l.eraseDups.map f).eraseDups := by
  induction l using List.reverseRecOn with
  | nil => rfl
  | append_singleton l a ih =>
    rw [List.map_append, List.map_singleton, eraseDups_concat, eraseDups_concat]
    by_cases ha : a ∈ l
    · rw [if_pos ha, if_pos (List.mem_map_of_mem ha), ih]
    · rw [if_neg ha, List.map_append, List.map_singleton, eraseDups_concat, ih]
      exact if_congr (by simp only [List.mem_map, List.mem_eraseDups]) rfl rfl

end FirstOccurrences

/-! ## Listings one behind the other

A list of alternatives is gone through and the results are put one behind the other. It comes to an
end if all of them do, and lack of fuel in one of them is lack of fuel for all. -/

/-- The listings that a function gives for the elements of a list, one behind the other. -/
def Fueled.collect {α β : Type} (f : α → Fueled (List β)) : List α → Fueled (List β)
  | [] => some []
  | a :: as =>
    match f a with
    | none => none
    | some bs => (collect f as).map (bs ++ ·)

namespace Fueled

variable {α β : Type} {f : α → Fueled (List β)}

/-- The first result stands in front. -/
theorem collect_cons_eq_some {a : α} {as : List α} {l : List β} :
    collect f (a :: as) = some l ↔
      ∃ bs rest, f a = some bs ∧ collect f as = some rest ∧ l = bs ++ rest := by
  rw [collect]
  cases f a with
  | none => simp
  | some bs => simp [eq_comm]

/-- Collecting over two lists is collecting over each of them. -/
theorem collect_append_eq_some {as bs : List α} {l : List β} :
    collect f (as ++ bs) = some l ↔
      ∃ first rest, collect f as = some first ∧ collect f bs = some rest ∧ l = first ++ rest := by
  induction as generalizing l with
  | nil => simp [collect]
  | cons a as ih =>
    rw [List.cons_append, collect_cons_eq_some]
    simp only [ih, collect_cons_eq_some]
    constructor
    · rintro ⟨front, -, ha, ⟨first, rest, has, hbs, rfl⟩, rfl⟩
      exact ⟨front ++ first, rest, ⟨front, first, ha, has, rfl⟩, hbs,
        (List.append_assoc front first rest).symm⟩
    · rintro ⟨-, rest, ⟨front, first, ha, has, rfl⟩, hbs, rfl⟩
      exact ⟨front, first ++ rest, ha, ⟨first, rest, has, hbs, rfl⟩,
        List.append_assoc front first rest⟩

/-- It ends if each part does. -/
theorem exists_collect {as : List α} (h : ∀ a ∈ as, ∃ bs, f a = some bs) :
    ∃ l, collect f as = some l := by
  induction as with
  | nil => exact ⟨[], rfl⟩
  | cons a as ih =>
    obtain ⟨⟨bs, ha⟩, has⟩ := List.forall_mem_cons.mp h
    obtain ⟨rest, hrest⟩ := ih has
    exact ⟨bs ++ rest, collect_cons_eq_some.mpr ⟨bs, rest, ha, hrest, rfl⟩⟩

/-- It ends only if each part does. -/
theorem exists_of_collect {as : List α} {l : List β} (h : collect f as = some l) :
    ∀ a ∈ as, ∃ bs, f a = some bs := by
  induction as generalizing l with
  | nil => exact fun a ha => absurd ha List.not_mem_nil
  | cons a as ih =>
    obtain ⟨bs, rest, ha, hrest, -⟩ := collect_cons_eq_some.mp h
    exact List.forall_mem_cons.mpr ⟨⟨bs, ha⟩, ih hrest⟩

/-- What is collected comes from one of the parts. -/
theorem mem_collect {as : List α} {l : List β} (h : collect f as = some l) {b : β} :
    b ∈ l ↔ ∃ a ∈ as, ∃ bs, f a = some bs ∧ b ∈ bs := by
  induction as generalizing l with
  | nil =>
    obtain rfl := Option.some.inj h
    simp
  | cons a as ih =>
    obtain ⟨bs, rest, ha, hrest, rfl⟩ := collect_cons_eq_some.mp h
    simp [ha, ih hrest]

/-- Listings that commute with a function are collected to one that does. -/
theorem collect_map {γ δ : Type} {g : γ → Fueled (List δ)} {e : α → γ} {k : β → δ} {as : List α}
    (h : ∀ a ∈ as, g (e a) = (f a).map (List.map k)) :
    collect g (as.map e) = (collect f as).map (List.map k) := by
  induction as with
  | nil => rfl
  | cons a as ih =>
    obtain ⟨ha, has⟩ := List.forall_mem_cons.mp h
    rw [List.map_cons, collect, collect, ha, ih has]
    cases f a with
    | none => rfl
    | some bs => cases collect f as <;> simp

end Fueled

namespace Catalog

open Relation Filter

/-! ## The lineage

Both recursions have fuel for a bound on how deep they go, and nothing else. A circle in the
hierarchy uses up any amount of it, and then there is no lineage. -/

variable (c : Catalog)

/-- The bases of a type from the nearest outwards, whether they repeat or not. -/
def baseLine : (fuel : Nat) → Ty → Fueled (List Ty)
  | 0, _ => none
  | fuel + 1, t =>
    match c.declaredBase? t with
    | none => some []
    | some base => (baseLine fuel base).map (base :: ·)

/-- An interface and all that it extends, each followed by what it extends itself. -/
def interfaceTree : (fuel : Nat) → Ty → Fueled (List Ty)
  | 0, _ => none
  | fuel + 1, t => (Fueled.collect (interfaceTree fuel) (c.declaredInterfaces t)).map (t :: ·)

/-- The type, then the trees of the interfaces that the links of its base chain declare, then its
bases. -/
def lineage (fuel : Nat) (t : Ty) : Fueled (List Ty) :=
  match c.baseLine fuel t with
  | none => none
  | some bases =>
    (Fueled.collect (c.interfaceTree fuel) ((t :: bases).flatMap c.declaredInterfaces)).map
      fun interfaces => t :: (interfaces ++ bases)

/-- The walk without a memory ends. -/
def LineageEnds (t : Ty) : Prop := ∃ fuel l, c.lineage fuel t = some l

variable {c} {fuel : Nat} {t : Ty} {l : List Ty}

/-- The line of bases is empty, or goes on from the base. -/
theorem baseLine_succ_eq_some (h : c.baseLine (fuel + 1) t = some l) :
    (c.declaredBase? t = none ∧ l = []) ∨
      ∃ base rest, c.HasBase t base ∧ c.baseLine fuel base = some rest ∧ l = base :: rest := by
  rw [baseLine] at h
  split at h
  · next hnone => exact .inl ⟨hnone, (Option.some.inj h).symm⟩
  · next base hbase =>
    obtain ⟨rest, hrest, rfl⟩ := Option.map_eq_some_iff.mp h
    exact .inr ⟨base, rest, hbase, hrest, rfl⟩

/-- The tree of interfaces has its root in front, and behind it the trees of the interfaces that the
root declares. -/
theorem interfaceTree_succ_eq_some (h : c.interfaceTree (fuel + 1) t = some l) :
    ∃ rest, Fueled.collect (c.interfaceTree fuel) (c.declaredInterfaces t) = some rest ∧
      l = t :: rest := by
  rw [interfaceTree] at h
  obtain ⟨rest, hrest, rfl⟩ := Option.map_eq_some_iff.mp h
  exact ⟨rest, hrest, rfl⟩

/-- A lineage begins with the type, and ends with its bases. -/
theorem lineage_eq_some (h : c.lineage fuel t = some l) :
    ∃ bases interfaces, c.baseLine fuel t = some bases ∧
      Fueled.collect (c.interfaceTree fuel) ((t :: bases).flatMap c.declaredInterfaces) =
        some interfaces ∧
      l = t :: (interfaces ++ bases) := by
  rw [lineage] at h
  split at h
  · cases h
  · next bases hbases =>
    obtain ⟨interfaces, hinterfaces, rfl⟩ := Option.map_eq_some_iff.mp h
    exact ⟨bases, interfaces, hbases, hinterfaces, rfl⟩

/-! ## Nothing that has a plain listing inherits from itself

A listing of finite depth is a proof that there is no infinite way up: the relation is accessible at
the type. So nothing on the way comes back to where it was, which is what the order of the two walks
depends on. -/

/-- What is well-founded downwards does not come back to itself. -/
theorem not_transGen_self {R : Ty → Ty → Prop} (h : Acc (Function.swap R) t) :
    ¬ TransGen R t t := by
  intro hcircle
  have hirrefl : ∀ {s}, Acc (TransGen (Function.swap R)) s → ¬ TransGen (Function.swap R) s s := by
    intro s hs
    induction hs with
    | intro s _ ih => exact fun hloop => ih s hloop hloop
  exact hirrefl h.transGen (transGen_swap.mpr hcircle)

/-- Where the line of bases comes to an end, there is no infinite chain of bases. -/
theorem acc_hasBase (h : c.baseLine fuel t = some l) : Acc (Function.swap c.HasBase) t := by
  induction fuel generalizing t l with
  | zero => cases h
  | succ fuel ih =>
    refine .intro t fun base hbase => ?_
    rcases baseLine_succ_eq_some h with ⟨hnone, -⟩ | ⟨base', rest, hbase', hrest, -⟩
    · exact absurd (hnone.symm.trans hbase) nofun
    · obtain rfl : base' = base := Option.some.inj (hbase'.symm.trans hbase)
      exact ih hrest

/-- Where the tree of interfaces does, there is no infinite chain of interfaces. -/
theorem acc_declares (h : c.interfaceTree fuel t = some l) : Acc (Function.swap c.Declares) t := by
  induction fuel generalizing t l with
  | zero => cases h
  | succ fuel ih =>
    obtain ⟨rest, hrest, -⟩ := interfaceTree_succ_eq_some h
    refine .intro t fun i hi => ?_
    obtain ⟨tree, htree⟩ := Fueled.exists_of_collect hrest i hi
    exact ih htree

/-- The tree holds what is reached from the type by declaring. -/
theorem mem_interfaceTree_iff (h : c.interfaceTree fuel t = some l) {x : Ty} :
    x ∈ l ↔ ReflTransGen c.Declares t x := by
  induction fuel generalizing t l with
  | zero => cases h
  | succ fuel ih =>
    obtain ⟨rest, hrest, rfl⟩ := interfaceTree_succ_eq_some h
    rw [List.mem_cons, Fueled.mem_collect hrest, ReflTransGen.cases_head_iff, eq_comm]
    refine or_congr_right (exists_congr fun i => and_congr_right fun hi => ?_)
    obtain ⟨tree, htree⟩ := Fueled.exists_of_collect hrest i hi
    simp [htree, ih htree]

/-! ## The two walks agree

The walk with a memory is compared with the collected trees, of which repetitions are removed. At a
type that was found before, the walk skips what the tree lists in full. That this is the same needs
the types that have been found to be finished, and it is the invariant of the induction
(`Finished`). -/

/-- A chain of bases that does not repeat is not cut off. -/
theorem basesFrom_eq_of_baseLine (h : c.baseLine fuel t = some l) {seen : List Ty}
    (hseen : ∀ b, TransGen c.HasBase t b → b ∉ seen) : c.basesFrom fuel seen t = some l := by
  induction fuel generalizing t l seen with
  | zero => cases h
  | succ fuel ih =>
    rw [basesFrom]
    rcases baseLine_succ_eq_some h with ⟨hnone, rfl⟩ | ⟨base, rest, hbase, hrest, rfl⟩
    · rw [hnone]
    · rw [show c.declaredBase? t = some base from hbase]
      dsimp only
      rw [if_neg (hseen base (.single hbase)), ih hrest, Option.map_some]
      intro b hb hmem
      rcases List.mem_cons.mp hmem with rfl | hmem
      · exact not_transGen_self (acc_hasBase hrest) hb
      · exact hseen b (hb.head hbase) hmem

variable (c) in
/-- Of the types that are reached from `pending`, those in `found` have their interfaces in it too.
-/
def Finished (found pending : List Ty) : Prop :=
  ∀ t ∈ pending, ∀ x ∈ found, ReflTransGen c.Declares t x → ∀ i, c.Declares x i → i ∈ found

/-- What is reached from a type that is found, and is no longer pending, is found. -/
theorem Finished.mem_of_reach {found pending : List Ty} (h : c.Finished found pending) {x : Ty}
    (ht : t ∈ pending) (hfound : t ∈ found) (hx : ReflTransGen c.Declares t x) : x ∈ found := by
  induction hx with
  | refl => exact hfound
  | tail hreach hstep ih => exact h t ht _ ih hreach _ hstep

/-- Walking over types one after the other adds their listings, if walking over each of them
does. -/
theorem walk_of_collect
    (hwalk : ∀ {t l found}, c.interfaceTree fuel t = some l → found.Nodup → c.Finished found [t] →
      c.Walk found [t] (found ++ l).eraseDups)
    {pending found : List Ty} (h : Fueled.collect (c.interfaceTree fuel) pending = some l)
    (hnodup : found.Nodup) (hfinished : c.Finished found pending) :
    c.Walk found pending (found ++ l).eraseDups := by
  induction pending generalizing found l with
  | nil =>
    obtain rfl := Option.some.inj h
    rw [List.append_nil, eraseDups_of_nodup hnodup]
    exact .done found
  | cons t rest ih =>
    obtain ⟨tree, trees, htree, htrees, rfl⟩ := Fueled.collect_cons_eq_some.mp h
    have hfirst := hwalk htree hnodup fun s hs =>
      hfinished s (List.mem_cons.mpr (.inl (List.mem_singleton.mp hs)))
    rw [← List.singleton_append, ← List.append_assoc, ← eraseDups_eraseDups_append (found ++ tree)]
    refine hfirst.append (ih htrees (nodup_eraseDups _) fun s hs x hx hreach i hi => ?_)
    -- what was found before is finished, and a tree has all interfaces of its types
    rw [List.mem_eraseDups, List.mem_append] at hx ⊢
    rcases hx with hx | hx
    · exact .inl (hfinished s (List.mem_cons_of_mem t hs) x hx hreach i hi)
    · rw [mem_interfaceTree_iff htree] at hx ⊢
      exact .inr (hx.tail hi)

/-- **The walk over an interface adds what is new in its tree.** -/
theorem walk_of_interfaceTree {found : List Ty} (h : c.interfaceTree fuel t = some l)
    (hnodup : found.Nodup) (hfinished : c.Finished found [t]) :
    c.Walk found [t] (found ++ l).eraseDups := by
  induction fuel generalizing t l found with
  | zero => cases h
  | succ fuel ih =>
    -- Either the whole tree has been listed, so that removing repetitions removes all of it, or the
    -- root is new, and then the trees of its interfaces follow as pending types.
    by_cases ht : t ∈ found
    · have hlisted : ∀ x ∈ l, x ∈ found := fun x hx =>
        hfinished.mem_of_reach (List.mem_singleton_self t) ht ((mem_interfaceTree_iff h).mp hx)
      rw [eraseDups_append_of_subset hlisted, eraseDups_of_nodup hnodup]
      exact .skip ht (.done found)
    · obtain ⟨trees, htrees, rfl⟩ := interfaceTree_succ_eq_some h
      refine .visit ht ?_
      rw [List.append_nil, show found ++ t :: trees = (found ++ [t]) ++ trees by simp]
      refine walk_of_collect ih htrees ?_ fun s hs x hx hreach i hi => ?_
      · rw [← List.concat_eq_append]
        exact hnodup.concat ht
      · rcases List.mem_append.mp hx with hx | hx
        · have hreach' : ReflTransGen c.Declares t x := .head hs hreach
          exact List.mem_append_left _ (hfinished t (List.mem_singleton_self t) x hx hreach' i hi)
        · -- the tree of the type itself does not come back to it
          rw [List.mem_singleton.mp hx] at hreach
          exact absurd (TransGen.head' hs hreach) (not_transGen_self (acc_declares h))

/-- The base chain is the line of bases: there is nothing to stop at. -/
theorem bases_of_baseLine (h : c.baseLine fuel t = some l) : c.bases fuel t = some l := by
  refine basesFrom_eq_of_baseLine h fun b hb hmem => ?_
  rw [List.mem_singleton.mp hmem] at hb
  exact not_transGen_self (acc_hasBase h) hb

/-- So the ancestors are the lineage without repetitions. -/
theorem ancestors_of_lineage (h : c.lineage fuel t = some l) :
    ∃ n, c.ancestors n t = some l.eraseDups := by
  obtain ⟨bases, interfaces, hline, hcollect, rfl⟩ := lineage_eq_some h
  have hbases := bases_of_baseLine hline
  -- the interfaces of the type itself come first, and then everything that was found is finished
  rw [List.flatMap_cons] at hcollect
  obtain ⟨own, inherited, hown, hinherited, rfl⟩ := Fueled.collect_append_eq_some.mp hcollect
  have htree : c.interfaceTree (fuel + 1) t = some (t :: own) := by
    rw [interfaceTree, hown, Option.map_some]
  have hfirst : c.Walk [t] (c.declaredInterfaces t) ([t] ++ own).eraseDups := by
    refine walk_of_collect walk_of_interfaceTree hown (List.nodup_singleton t) ?_
    intro s hs x hx hreach
    rw [List.mem_singleton.mp hx] at hreach
    exact absurd (TransGen.head' hs hreach) (not_transGen_self (acc_declares htree))
  have hclosed : c.Finished ([t] ++ own).eraseDups (bases.flatMap c.declaredInterfaces) := by
    intro s hs x hx hreach i hi
    rw [List.mem_eraseDups, List.singleton_append, mem_interfaceTree_iff htree] at hx ⊢
    exact hx.tail hi
  have hwalk := hfirst.append (walk_of_collect walk_of_interfaceTree hinherited
    (nodup_eraseDups _) hclosed)
  obtain ⟨n, habove⟩ := exists_ancestors_of_walk hbases (by rwa [List.flatMap_cons])
  refine ⟨n, habove.trans (congrArg some ?_)⟩
  rw [eraseDups_eraseDups_append, ← List.cons_append,
    ← List.singleton_append (l := own ++ inherited),
    eraseDups_append_eq _ bases, eraseDups_of_nodup (c.nodup_basesFrom hbases).1, List.append_assoc]
  congr 1
  refine List.filter_congr fun b _ => ?_
  simp

/-- **The ancestors are the lineage without its repetitions**: where the walk without a memory comes
to its end, the walk over the ancestors does as well and lists the same types, the type itself
first, each of them once, and in the order of their first positions in the lineage. -/
theorem ancestors_eq_eraseDups_lineage (h : c.lineage fuel t = some l) :
    ∃ above, (∀ᶠ n in atTop, c.ancestors n t = some above) ∧ above = l.eraseDups ∧
      above.head? = some t ∧ above.Nodup ∧ (∀ a, a ∈ above ↔ a ∈ l) ∧
      above.Pairwise fun a b => l.idxOf a < l.idxOf b := by
  obtain ⟨n, habove⟩ := ancestors_of_lineage h
  refine ⟨l.eraseDups, Fueled.eventually_eq_some (fun h => c.ancestors_le h t) habove, rfl, ?_,
    nodup_eraseDups l, fun a => List.mem_eraseDups, pairwise_idxOf_eraseDups l⟩
  obtain ⟨bases, interfaces, -, -, rfl⟩ := lineage_eq_some h
  rw [List.eraseDups_cons, List.head?_cons]

/-- An array of strings is a sequence as a list of its elements, and again as an array. -/
theorem baseLibrary_lineage :
    baseLibrary.lineage 5 (.array 1 (.nominal 18)) =
        some [.array 1 (.nominal 18), .named 12 [.nominal 18], .named 11 [.nominal 18],
          .nominal 10, .nominal 10, .nominal 13, .nominal 8] ∧
      ∃ above, (∀ᶠ n in atTop, baseLibrary.ancestors n (.array 1 (.nominal 18)) = some above) ∧
        above = [.array 1 (.nominal 18), .named 12 [.nominal 18], .named 11 [.nominal 18],
          .nominal 10, .nominal 13, .nominal 8] := by
  have hlineage : baseLibrary.lineage 5 (.array 1 (.nominal 18)) =
      some [.array 1 (.nominal 18), .named 12 [.nominal 18], .named 11 [.nominal 18],
        .nominal 10, .nominal 10, .nominal 13, .nominal 8] := rfl
  obtain ⟨above, habove, heq, -⟩ := ancestors_eq_eraseDups_lineage hlineage
  exact ⟨hlineage, above, habove, heq.trans (by decide)⟩

/-! ## Lineages that end

In an acyclic hierarchy the level of a type bounds how deep its listings go. -/

variable {rank : DefIndex → Nat}

/-- A line of bases is no longer than the level of its start. -/
theorem Acyclic.exists_baseLine (hc : c.Acyclic rank) (h : level rank t < fuel) :
    ∃ bases, c.baseLine fuel t = some bases := by
  induction fuel generalizing t with
  | zero => exact absurd h (Nat.not_lt_zero _)
  | succ fuel ih =>
    rw [baseLine]
    cases hbase : c.declaredBase? t with
    | none => exact ⟨[], rfl⟩
    | some base =>
      have hlt := hc.level_lt_of_step (.inl hbase)
      obtain ⟨bases, hbases⟩ := ih (Nat.lt_of_lt_of_le hlt (Nat.le_of_lt_succ h))
      refine ⟨base :: bases, ?_⟩
      dsimp only
      rw [hbases, Option.map_some]

/-- A tree of interfaces is no higher than the level of its root. -/
theorem Acyclic.exists_interfaceTree (hc : c.Acyclic rank) (h : level rank t < fuel) :
    ∃ tree, c.interfaceTree fuel t = some tree := by
  induction fuel generalizing t with
  | zero => exact absurd h (Nat.not_lt_zero _)
  | succ fuel ih =>
    have hlower : ∀ i ∈ c.declaredInterfaces t, ∃ tree, c.interfaceTree fuel i = some tree :=
      fun i hi => ih (Nat.lt_of_lt_of_le (hc.level_lt_of_step (.inr hi)) (Nat.le_of_lt_succ h))
    obtain ⟨trees, htrees⟩ := Fueled.exists_collect hlower
    exact ⟨t :: trees, by rw [interfaceTree, htrees, Option.map_some]⟩

/-- In an acyclic hierarchy every type has a lineage. -/
theorem Acyclic.lineageEnds (hc : c.Acyclic rank) (t : Ty) : c.LineageEnds t := by
  obtain ⟨bases, hbases⟩ := hc.exists_baseLine (Nat.lt_succ_self (level rank t))
  have htrees : ∀ i ∈ (t :: bases).flatMap c.declaredInterfaces,
      ∃ tree, c.interfaceTree (level rank t + 1) i = some tree := fun i hi =>
    hc.exists_interfaceTree
      (Nat.lt_succ_of_le (hc.level_le (inherits_of_mem_links (bases_of_baseLine hbases) hi)))
  obtain ⟨interfaces, hinterfaces⟩ := Fueled.exists_collect htrees
  refine ⟨level rank t + 1, t :: (interfaces ++ bases), ?_⟩
  rw [lineage, hbases]
  dsimp only
  rw [hinterfaces, Option.map_some]

/-- **In an acyclic hierarchy the walk over the ancestors of any type comes to its end.** -/
theorem Acyclic.hierarchyEnds (hc : c.Acyclic rank) : c.HierarchyEnds := by
  intro t
  obtain ⟨fuel, l, hl⟩ := hc.lineageEnds t
  obtain ⟨n, habove⟩ := ancestors_of_lineage hl
  exact ⟨n, _, habove⟩

end Catalog

end TypeResolution
