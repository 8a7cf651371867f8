import TypeResolution.Proofs.Unification.Silent

/-!
# Searches that do the same

Two searches do the same if one is the other with its events translated and its items exchanged for
related ones. The combinators keep this, so two programs that are put together alike do the same as
soon as their parts do. Consumers cannot tell such searches apart, but for the events that they
record (`Translated.runFrom`).

The relation is more than having the same record. It compares the two searches as data, so it holds
inside of combinators as well, where a search is consumed by something other than a run: if nested
resolutions of two resolvers are related then so are the ways of filling parameters, then the calls,
and in the end the resolutions. With the translation of events and the relation of items both
trivial it is equality (`Translated.eq`).
-/

namespace TypeResolution.Search

variable {ν ν' ε ε' α α' β β' : Type} {h : ν → ν'} {R : α → α' → Prop} {S : β → β' → Prop}

/-- The second search is the first one with its events translated by `h` and its items exchanged for
related ones. -/
inductive Translated (h : ν → ν') (R : α → α' → Prop) : Search ν ε α → Search ν' ε α' → Prop where
  /-- both come to their end -/
  | done : Translated h R .done .done
  /-- both fail alike -/
  | failed (e : ε) : Translated h R (.failed e) (.failed e)
  /-- both run out of fuel -/
  | exhausted : Translated h R .exhausted .exhausted
  /-- an event is reported, and its translation -/
  | event (e : ν) {s : Unit → Search ν ε α} {s' : Unit → Search ν' ε α'}
      (hs : Translated h R (s ()) (s' ())) : Translated h R (.event e s) (.event (h e) s')
  /-- related items are found -/
  | found {a : α} {a' : α'} (ha : R a a') {s : Unit → Search ν ε α} {s' : Unit → Search ν' ε α'}
      (hs : Translated h R (s ()) (s' ())) : Translated h R (.found a s) (.found a' s')

/-- Two searches for a single item do the same if the items are related. -/
theorem translated_single {a : α} {a' : α'} (ha : R a a') :
    Translated h R (single a : Search ν ε α) (single a') := .found ha .done

/-- Without events there is nothing to translate. -/
theorem Silent.translated {s : Search ν ε α} (hs : s.Silent) {h : ν → ν} :
    Translated h Eq s s := by
  induction s with
  | done => exact .done
  | failed e => exact .failed e
  | exhausted => exact .exhausted
  | event e rest ih => exact hs.elim
  | found a rest ih => exact .found rfl (ih () hs)

/-- With nothing to translate and nothing to exchange, the searches are the same. -/
theorem Translated.eq {s s' : Search ν ε α} (hs : Translated id Eq s s') : s' = s := by
  induction hs with
  | done => rfl
  | failed e => rfl
  | exhausted => rfl
  | event e _ ih => exact congrArg (Search.event e) (funext fun _ => ih)
  | found ha _ ih => exact ha ▸ congrArg (Search.found _) (funext fun _ => ih)

variable {s : Search ν ε α} {s' : Search ν' ε α'}

/-- Searching on behind a search is kept: the first two end together, or neither does. -/
theorem Translated.append (hs : Translated h R s s') {t : Unit → Search ν ε α}
    {t' : Unit → Search ν' ε α'} (ht : Translated h R (t ()) (t' ())) :
    Translated h R (s.append t) (s'.append t') := by
  induction hs with
  | done => exact ht
  | failed e => exact .failed e
  | exhausted => exact .exhausted
  | event e _ ih => exact .event e ih
  | found ha _ ih => exact .found ha ih

/-- So is falling back on a second search. Both of the first two find something, or neither does. -/
theorem Translated.orElse (hs : Translated h R s s') {t : Unit → Search ν ε α}
    {t' : Unit → Search ν' ε α'} (ht : Translated h R (t ()) (t' ())) :
    Translated h R (s.orElse t) (s'.orElse t') := by
  induction hs with
  | done => exact ht
  | failed e => exact .failed e
  | exhausted => exact .exhausted
  | event e _ ih => exact .event e ih
  | found ha hs _ => exact .found ha hs

/-- And so is going on behind a search that may be definitive. -/
theorem Translated.andThen (definitive : Bool) (hs : Translated h R s s')
    {t : Unit → Search ν ε α} {t' : Unit → Search ν' ε α'} (ht : Translated h R (t ()) (t' ())) :
    Translated h R (s.andThen definitive t) (s'.andThen definitive t') := by
  cases definitive with
  | false => exact hs.append ht
  | true => exact hs.orElse ht

/-- Items may be changed, if related items become related ones. -/
theorem Translated.map (hs : Translated h R s s') {f : α → β} {f' : α' → β'}
    (hf : ∀ a a', R a a' → S (f a) (f' a')) : Translated h S (s.map f) (s'.map f') := by
  induction hs with
  | done => exact .done
  | failed e => exact .failed e
  | exhausted => exact .exhausted
  | event e _ ih => exact .event e ih
  | found ha _ ih => exact .found (hf _ _ ha) ih

/-- Searching on from related items has to lead to searches that do the same. -/
theorem Translated.bind (hs : Translated h R s s') {f : α → Search ν ε β}
    {f' : α' → Search ν' ε β'} (hf : ∀ a a', R a a' → Translated h S (f a) (f' a')) :
    Translated h S (s.bind f) (s'.bind f') := by
  induction hs with
  | done => exact .done
  | failed e => exact .failed e
  | exhausted => exact .exhausted
  | event e _ ih => exact .event e ih
  | found ha _ ih => exact (hf _ _ ha).append ih

/-- The same if only the first success is gone on with, as both find it at the same place. -/
theorem Translated.bindFirst (hs : Translated h R s s') {f : α → Search ν ε β}
    {f' : α' → Search ν' ε β'} (hf : ∀ a a', R a a' → Translated h S (f a) (f' a')) :
    Translated h S (s.bindFirst f) (s'.bindFirst f') := by
  induction hs with
  | done => exact .done
  | failed e => exact .failed e
  | exhausted => exact .exhausted
  | event e _ ih => exact .event e ih
  | found ha _ ih => exact (hf _ _ ha).orElse ih

/-- A choice is kept, definitive or not. -/
theorem Translated.choose (definitive : Bool) (hs : Translated h R s s')
    {f : α → Search ν ε β} {f' : α' → Search ν' ε β'}
    (hf : ∀ a a', R a a' → Translated h S (f a) (f' a')) :
    Translated h S (s.choose definitive f) (s'.choose definitive f') := by
  cases definitive with
  | false => exact hs.bind hf
  | true => exact hs.bindFirst hf

/-- A drive hands over the same values and the same end. -/
theorem Translated.gather {s' : Search ν' ε α} (hs : Translated h Eq s s') (stop : List α → Bool)
    (seen : List α) :
    Translated h Eq (s.gather stop seen : Search ν ε' _) (s'.gather stop seen) := by
  induction hs generalizing seen with
  | done => exact translated_single rfl
  | failed e => exact translated_single rfl
  | exhausted => exact .exhausted
  | event e _ ih => exact .event e (ih seen)
  | @found a a' ha _ _ _ ih =>
    subst ha
    rw [Search.gather, Search.gather]
    split
    · exact translated_single rfl
    · exact ih (seen ++ [a])

/-- **No consumer can tell the searches apart**: items and end are the same, and the events of one
run are translations of the events of the other. -/
theorem Translated.runFrom {s' : Search ν' ε α} (hs : Translated h Eq s s')
    (stop : List α → Bool) (seen : List α) :
    s'.runFrom stop seen =
      ⟨(s.runFrom stop seen).events.map h, (s.runFrom stop seen).items,
        (s.runFrom stop seen).ending⟩ := by
  induction hs generalizing seen with
  | done => rfl
  | failed e => rfl
  | exhausted => rfl
  | event e _ ih =>
    rw [Search.runFrom, Search.runFrom, ih seen]
    rfl
  | @found a a' ha _ _ _ ih =>
    subst ha
    rw [Search.runFrom, Search.runFrom]
    split
    · rfl
    · rw [ih (seen ++ [a])]

end TypeResolution.Search
