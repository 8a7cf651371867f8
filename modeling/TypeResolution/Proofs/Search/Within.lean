import TypeResolution.Proofs.Unification.Silent

/-!
# What a search may report and find

A search is *within* bounds if all its events satisfy one predicate and all its items another. The
combinators keep the bounds, so that of a search which is put together from others it is enough to
know the parts. The predicate on items is what one search hands to the next: whatever leads to a
further search under `bind` has been found within bounds.

Bounds say what may happen and nothing about whether it does, so they are kept by every combinator
that leaves something out. In this they differ from traces, which say exactly what happens and for
which pruning matters.
-/

namespace TypeResolution

namespace Search

variable {ν ε ε' α β : Type} {P : ν → Prop} {Q : α → Prop} {Q' : β → Prop}

/-- All events satisfy `P`, and all items satisfy `Q`. -/
def Within (P : ν → Prop) (Q : α → Prop) : Search ν ε α → Prop
  | .done => True
  | .failed _ => True
  | .exhausted => True
  | .event e rest => P e ∧ Within P Q (rest ())
  | .found a rest => Q a ∧ Within P Q (rest ())

/-- A single item is within bounds if it satisfies its predicate. -/
theorem within_single {a : α} (h : Q a) : Within P Q (single a : Search ν ε α) := ⟨h, trivial⟩

/-- So are the items of a list. -/
theorem within_ofList {as : List α} (h : ∀ a ∈ as, Q a) :
    Within P Q (ofList as : Search ν ε α) := by
  induction as with
  | nil => trivial
  | cons a as ih =>
    obtain ⟨ha, has⟩ := List.forall_mem_cons.mp h
    exact ⟨ha, ih has⟩

/-- A search without events reports nothing out of bounds. -/
theorem Silent.within {s : Search ν ε α} (h : s.Silent) : s.Within P fun _ => True := by
  induction s with
  | event e rest ih => exact h.elim
  | found a rest ih => exact ⟨trivial, ih () h⟩
  | _ => trivial

/-- Two searches in a row are within the bounds that both keep. -/
theorem Within.append {s : Search ν ε α} (h : s.Within P Q) {t : Unit → Search ν ε α}
    (ht : (t ()).Within P Q) : (s.append t).Within P Q := by
  induction s with
  | done => exact ht
  | failed e => trivial
  | exhausted => trivial
  | event e rest ih => exact ⟨h.1, ih () h.2⟩
  | found a rest ih => exact ⟨h.1, ih () h.2⟩

/-- So is a search with another one to fall back on. -/
theorem Within.orElse {s : Search ν ε α} (h : s.Within P Q) {t : Unit → Search ν ε α}
    (ht : (t ()).Within P Q) : (s.orElse t).Within P Q := by
  induction s with
  | done => exact ht
  | failed e => trivial
  | exhausted => trivial
  | event e rest ih => exact ⟨h.1, ih () h.2⟩
  | found a rest ih => exact h

/-- And a search that may be definitive. -/
theorem Within.andThen (definitive : Bool) {s : Search ν ε α} (h : s.Within P Q)
    {t : Unit → Search ν ε α} (ht : (t ()).Within P Q) : (s.andThen definitive t).Within P Q := by
  cases definitive with
  | false => exact h.append ht
  | true => exact h.orElse ht

/-- Changed items satisfy what the unchanged ones make them satisfy. -/
theorem Within.map {s : Search ν ε α} (h : s.Within P Q) {f : α → β} (hf : ∀ a, Q a → Q' (f a)) :
    (s.map f).Within P Q' := by
  induction s with
  | event e rest ih => exact ⟨h.1, ih () h.2⟩
  | found a rest ih => exact ⟨hf a h.1, ih () h.2⟩
  | _ => trivial

/-- Searching on from items within bounds: the bounds of the items are the assumption on what they
lead to, and get lost behind it. -/
theorem Within.bind {s : Search ν ε α} (h : s.Within P Q) {f : α → Search ν ε β}
    (hf : ∀ a, Q a → (f a).Within P Q') : (s.bind f).Within P Q' := by
  induction s with
  | event e rest ih => exact ⟨h.1, ih () h.2⟩
  | found a rest ih => exact (hf a h.1).append (ih () h.2)
  | _ => trivial

/-- The same for the first success only. -/
theorem Within.bindFirst {s : Search ν ε α} (h : s.Within P Q) {f : α → Search ν ε β}
    (hf : ∀ a, Q a → (f a).Within P Q') : (s.bindFirst f).Within P Q' := by
  induction s with
  | event e rest ih => exact ⟨h.1, ih () h.2⟩
  | found a rest ih => exact (hf a h.1).orElse (ih () h.2)
  | _ => trivial

/-- A choice keeps the bounds that its alternatives keep. -/
theorem Within.choose (definitive : Bool) {s : Search ν ε α} (h : s.Within P Q)
    {f : α → Search ν ε β} (hf : ∀ a, Q a → (f a).Within P Q') :
    (s.choose definitive f).Within P Q' := by
  cases definitive with
  | false => exact h.bind hf
  | true => exact h.bindFirst hf

/-- A drive reports what the search reports; what it finds is up to the consumer. -/
theorem Within.gather (stop : List α → Bool) (seen : List α) {s : Search ν ε α}
    (h : s.Within P Q) : (s.gather stop seen : Search ν ε' _).Within P fun _ => True := by
  induction s generalizing seen with
  | done => exact within_single trivial
  | failed e => exact within_single trivial
  | exhausted => trivial
  | event e rest ih => exact ⟨h.1, ih () seen h.2⟩
  | found a rest ih =>
    rw [Search.gather]
    split
    · exact within_single trivial
    · exact ih () (seen ++ [a]) h.2

/-- No consumer makes a search report more. -/
theorem Within.forall_events (stop : List α → Bool) (seen : List α) {s : Search ν ε α}
    (h : s.Within P Q) : ∀ e ∈ (s.runFrom stop seen).events, P e := by
  induction s generalizing seen with
  | event e rest ih => exact List.forall_mem_cons.mpr ⟨h.1, ih () seen h.2⟩
  | found a rest ih =>
    rw [runFrom]
    split
    · exact fun e he => absurd he List.not_mem_nil
    · exact ih () (seen ++ [a]) h.2
  | _ => exact fun e he => absurd he List.not_mem_nil

end Search

end TypeResolution
