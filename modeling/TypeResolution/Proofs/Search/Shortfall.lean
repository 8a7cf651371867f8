import TypeResolution.Proofs.Search.Listing

/-!
# Listings that lack of fuel cuts short

What a search finds under little fuel is a beginning of what it finds under more
(`Search.Le.listing_le`). `Listing.Le` is this order on listings, as `Search.Le` is on searches: the
smaller listing is the larger one, or it is a beginning of it with the fuel used up. The combinators
respect it, and so does whoever drives a listing (`Le.drive`).

On searches the order compares events as well. On listings it only compares items and errors, so it
also says what remains of a search when parts of it are left out that find nothing and do not fail
(`concat_idle_le`).

The order is coarse: below a listing there are only those of its beginnings that lack of fuel
produced. So a listing that came to its end is below no other one (`Le.eq_of_ending`), and this is
how the order is used. Whatever is compared in it has to be shown once for all fuels, and equality
follows where the smaller side ended.
-/

namespace TypeResolution

namespace Listing

variable {ε α β : Type} {l l' m m' : Listing ε α}

/-- The second listing is the first one, going on where the first runs out of fuel. -/
def Le (l m : Listing ε α) : Prop :=
  l = m ∨ l.interruption = some .exhausted ∧ l.items <+: m.items

/-- A listing is below itself. -/
theorem Le.refl (l : Listing ε α) : l.Le l := .inl rfl

/-- Without any fuel nothing is found, which is a beginning of anything. -/
theorem exhausted_le (m : Listing ε α) : exhausted.Le m := .inr ⟨rfl, List.nil_prefix⟩

/-- A beginning of a beginning is a beginning, and it is cut short in the same way. -/
theorem Le.trans (h : l.Le l') (h' : l'.Le m) : l.Le m := by
  rcases h with rfl | ⟨hcut, hprefix⟩
  · exact h'
  · rcases h' with rfl | ⟨-, hprefix'⟩
    · exact .inr ⟨hcut, hprefix⟩
    · exact .inr ⟨hcut, hprefix.trans hprefix'⟩

/-- A listing that lack of fuel did not cut short stays as it is. -/
theorem Le.eq_of_ending (h : l.Le m) (hend : l.ending ≠ none) : m = l := by
  rcases h with rfl | ⟨hcut, -⟩
  · rfl
  · rw [ending, hcut] at hend
    exact absurd rfl hend

/-- Changing items respects the order. -/
theorem Le.map (h : l.Le m) (f : α → β) : (l.map f).Le (m.map f) := by
  rcases h with rfl | ⟨hcut, hprefix⟩
  · exact .refl _
  · exact .inr ⟨hcut, hprefix.map f⟩

/-! ## Rows of listings

That `andThen` respects the order in both arguments rests on two facts: nothing follows an
interrupted listing, and a listing is a beginning of every row that it starts. If the first listing
of a row is cut short, then so is the row, before anything else has a say in it. -/

/-- Nothing follows a listing that was interrupted. -/
theorem andThen_of_interruption {i : Interruption ε} (h : l.interruption = some i)
    (definitive : Bool) (m : Listing ε α) : l.andThen definitive m = l := by
  obtain ⟨as, _ | i⟩ := l
  · cases h
  · exact ite_self _

/-- A row begins with the items of its first listing. -/
theorem prefix_andThen (definitive : Bool) (l m : Listing ε α) :
    l.items <+: (l.andThen definitive m).items := by
  rw [andThen]
  split
  · exact List.prefix_rfl
  · rcases l with ⟨as, _ | i⟩
    · exact List.prefix_append as m.items
    · exact List.prefix_rfl

/-- Rows of two respect the order. -/
theorem Le.andThen (definitive : Bool) (hl : l.Le l') (hm : m.Le m') :
    (l.andThen definitive m).Le (l'.andThen definitive m') := by
  rcases hl with rfl | ⟨hcut, hprefix⟩
  · rcases hm with rfl | ⟨hcut, hprefix⟩
    · exact .refl _
    · rw [Listing.andThen, Listing.andThen]
      -- the first listing is the same in both, so both rows are cut behind it or neither is
      split
      · exact .refl _
      · rcases l with ⟨as, _ | i⟩
        · exact .inr ⟨hcut, (List.prefix_append_right_inj as).mpr hprefix⟩
        · exact .refl _
  · rw [andThen_of_interruption hcut]
    exact .inr ⟨hcut, hprefix.trans (prefix_andThen definitive l' m')⟩

/-- Rows of many respect the order, in front of rows that do. The second part is what an induction
over a search needs, where the end of the first row is not the end of the whole. -/
theorem Le.concat_append {ι : Type} {is : List ι} (definitive : ι → Bool) {f g : ι → Listing ε α}
    (hfg : ∀ i ∈ is, (f i).Le (g i)) {ls ms : List (Bool × Listing ε α)}
    (h : (concat ls).Le (concat ms)) :
    (concat (is.map (fun i => (definitive i, f i)) ++ ls)).Le
      (concat (is.map (fun i => (definitive i, g i)) ++ ms)) := by
  induction is with
  | nil => exact h
  | cons i is ih =>
    obtain ⟨hi, his⟩ := List.forall_mem_cons.mp hfg
    exact hi.andThen (definitive i) (ih his)

/-- Rows of many respect the order. -/
theorem Le.concat {ι : Type} {is : List ι} (definitive : ι → Bool) {f g : ι → Listing ε α}
    (hfg : ∀ i ∈ is, (f i).Le (g i)) :
    (Listing.concat (is.map fun i => (definitive i, f i))).Le
      (Listing.concat (is.map fun i => (definitive i, g i))) := by
  simpa using Le.concat_append definitive hfg (.refl (Listing.concat []))

/-- What items lead to respects the order. If there are fewer items in the smaller listing, the fuel
has run out behind them. -/
theorem Le.each (definitive : Bool) (h : l.Le m) {f g : α → Listing ε β}
    (hfg : ∀ a ∈ l.items, (f a).Le (g a)) : (l.each definitive f).Le (m.each definitive g) := by
  rw [Listing.each, Listing.each]
  rcases h with rfl | ⟨hcut, bs, hbs⟩
  · exact .concat_append (fun _ => definitive) hfg (.refl _)
  · rw [← hbs, List.map_append, List.append_assoc, hcut]
    exact .concat_append (fun _ => definitive) hfg (exhausted_le _)

/-- An answer that was there stays, and without one there is no listing yet. -/
theorem Le.ofFueled {x y : Fueled α} (h : x.Le y) {f g : α → Listing ε β}
    (hfg : ∀ a, x = some a → (f a).Le (g a)) :
    (Listing.ofFueled x f).Le (Listing.ofFueled y g) := by
  rcases h.none_or_some with rfl | ⟨a, rfl, rfl⟩
  · exact exhausted_le _
  · exact hfg a rfl

/-! ## Consumers -/

/-- A consumer that has seen enough of the beginning takes no more of the whole. -/
theorem Le.drive (stop : List α → Bool) (h : l.Le m) : (l.drive stop).Le (m.drive stop) := by
  rcases h with rfl | ⟨hcut, bs, hbs⟩
  · exact .refl _
  · have hinits : l.items.inits ≠ [] :=
      List.ne_nil_of_mem ((List.mem_inits [] l.items).mpr List.nil_prefix)
    rw [Listing.drive, Listing.drive, ← hbs, hcut, List.inits_append,
      List.tail_append_of_ne_nil hinits, List.find?_append]
    cases l.items.inits.tail.find? stop with
    | none => exact .none _
    | some taken => exact .refl _

/-! ## What may be left out

Leaving out a part of a row changes what it gives, in general: the part may have items, or fail, or
be cut short. A part without items that does not fail is missed by nobody, except that the row may
then need less fuel. And a part that fails is not missed if the row never gets to it. -/

/-- Nothing is missed of a listing without items that does not fail. -/
theorem andThen_idle_le (hitems : l.items = []) (hfail : ∀ e, l.interruption ≠ some (.failed e))
    (definitive : Bool) (m : Listing ε α) : (l.andThen definitive m).Le m := by
  rcases l with ⟨as, _ | e | _⟩
  · obtain rfl := hitems
    rw [andThen, List.isEmpty_nil, Bool.not_true, Bool.and_false, if_neg Bool.false_ne_true]
    exact .refl m
  · exact absurd rfl (hfail e)
  · obtain rfl := hitems
    rw [andThen_of_interruption rfl]
    exact exhausted_le m

/-- Either nothing comes behind a listing in a row, or it is what comes behind that decides how the
row ends. -/
theorem andThen_eq_or_interruption (definitive : Bool) (l : Listing ε α) :
    (∀ m : Listing ε α, l.andThen definitive m = l) ∨
      ∀ m : Listing ε α, (l.andThen definitive m).interruption = m.interruption := by
  rcases l with ⟨as, _ | i⟩
  · cases hcut : definitive && !as.isEmpty with
    | true => exact .inl fun m => if_pos hcut
    | false =>
      refine .inr fun m => ?_
      rw [andThen, hcut, if_neg Bool.false_ne_true]
      rfl
  · exact .inl fun m => andThen_of_interruption rfl definitive m

/-- A listing without items may be left out of a row of listings, if the row up to it does not fail
unless the listings before do. So it may fail itself, as long as it is never its turn. -/
theorem concat_idle_le {ι : Type} (definitive : ι → Bool) {f : ι → Listing ε α} {i : ι}
    (hitems : (f i).items = []) {is : List ι}
    (hfail : ∀ e, (concat ((is ++ [i]).map fun i => (definitive i, f i))).interruption =
        some (.failed e) →
      (concat (is.map fun i => (definitive i, f i))).interruption = some (.failed e))
    (js : List ι) :
    (concat ((is ++ i :: js).map fun i => (definitive i, f i))).Le
      (concat ((is ++ js).map fun i => (definitive i, f i))) := by
  induction is with
  | nil =>
    refine andThen_idle_le hitems (fun e he => ?_) (definitive i) _
    have hrow : concat [(definitive i, f i)] = f i := by
      rw [concat_cons, concat_nil, andThen, append_nothing, ite_self]
    cases hfail e (hrow ▸ he)
  | cons i' is ih =>
    rcases andThen_eq_or_interruption (definitive i') (f i') with hcut | hgoes
    · exact .inl ((hcut _).trans (hcut _).symm)
    · refine (Le.refl (f i')).andThen (definitive i') (ih fun e he => ?_)
      rw [← hgoes]
      exact hfail e ((hgoes _).trans he)

end Listing

/-- With more fuel a search finds what it found, and goes on. -/
theorem Search.Le.listing_le {ν ε α : Type} {s t : Search ν ε α} (h : s.Le t) :
    s.listing.Le t.listing := by
  induction h with
  | exhausted t => exact Listing.exhausted_le _
  | done => exact .refl _
  | failed e => exact .refl _
  | event e _ ih => exact ih
  | found a _ ih =>
    rw [listing_found, listing_found, ← Listing.andThen_false, ← Listing.andThen_false]
    exact (Listing.Le.refl _).andThen false ih

end TypeResolution
