import TypeResolution.Proofs.Catalog.Storage

/-!
# What an instance tells about its making

An instance can be asked for its definition and for its arguments. The answers are what it was made
of, up to the form in which arguments are stored (`keptArgs`), and making it again from the answers
gives the same instance (`instantiate_eq_ok_iff`). So nothing but the form of pointer and
by-reference arguments is lost: two instances are equal exactly if definition and kept arguments are
(`instantiation_inverse`).

The second making takes the branches of the first. Structural stand-ins keep their arguments as they
are and check no bounds. Any other definition checks the bounds on the stored arguments, and to
store these once more changes nothing.
-/

namespace TypeResolution.Catalog

/-- The arguments that an instance of a definition holds. Structural stand-ins keep them as they
are; any other definition keeps pointers and by-reference types in nominal form. -/
def keptArgs (d : DefIndex) (args : List Ty) : List Ty :=
  if (Marker.ofDefinition? d).all Marker.isKind then args.map storedArg else args

variable {c : Catalog} {fuel : Nat} {d : DefIndex} {args : List Ty} {t : Ty}

/-- A structural stand-in keeps its arguments as they are. -/
theorem keptArgs_of_structural (h : IsStructural d) : keptArgs d args = args := by
  obtain ⟨m, hm, hkind⟩ := h
  simp [keptArgs, hm, hkind]

/-- Any other definition keeps them as they are stored. -/
theorem keptArgs_of_not_structural (h : ¬ IsStructural d) :
    keptArgs d args = args.map storedArg := by
  rw [keptArgs, if_pos]
  rw [Option.all_eq_true]
  intro m hm
  by_contra hkind
  exact h ⟨m, hm, by simpa using hkind⟩

/-- Arguments that are kept once are kept as they are. -/
theorem keptArgs_keptArgs (d : DefIndex) (args : List Ty) :
    keptArgs d (keptArgs d args) = keptArgs d args := by
  by_cases hd : IsStructural d
  · rw [keptArgs_of_structural hd]
  · simp only [keptArgs_of_not_structural hd, List.map_map]
    exact List.map_congr_left fun a _ => storedArg_storedArg a

/-- **Only the kept arguments matter** to a definition. -/
theorem instantiate_keptArgs (c : Catalog) (fuel : Nat) (d : DefIndex) (args : List Ty) :
    c.instantiate fuel d (keptArgs d args) = c.instantiate fuel d args := by
  by_cases hd : IsStructural d
  · rw [keptArgs_of_structural hd]
  · refine instantiate_congr_stored hd ?_ fuel
    rw [← keptArgs_of_not_structural hd, keptArgs_keptArgs, keptArgs_of_not_structural hd]

/-- An instance holds the arguments that are kept. -/
theorem headArgs_eq_keptArgs (h : c.instantiate fuel d args = some (.ok t)) :
    t.headArgs = keptArgs d args := by
  rcases (c.instantiate_ok h).2 with hs | ⟨hs, rfl, -⟩
  · have hd : IsStructural d := by
      by_contra hd
      rw [structural?_eq_none hd] at hs
      cases hs
    rw [Ty.headArgs_of_structural? hs, keptArgs_of_structural hd]
  · have hd : ¬ IsStructural d := by
      rintro ⟨m, hm, hkind⟩
      rw [isKind_of_structural? (c.length_of_instantiate h) hs hm] at hkind
      cases hkind
    rw [Ty.headArgs, keptArgs_of_not_structural hd]

/-- **Making an instance and asking what it was made of undo each other.** A type is the instance of
a definition over some arguments exactly if the definition is the one it names, if the arguments are
kept as those that it names, and if it can be made again from these. -/
theorem instantiate_eq_ok_iff :
    c.instantiate fuel d args = some (.ok t) ↔
      t.head? = some d ∧ t.headArgs = keptArgs d args ∧
        c.instantiate fuel d t.headArgs = some (.ok t) := by
  constructor
  · intro h
    have hkept := headArgs_eq_keptArgs h
    refine ⟨c.head?_of_instantiate h, hkept, ?_⟩
    rw [hkept, instantiate_keptArgs]
    exact h
  · rintro ⟨-, hkept, h⟩
    rwa [hkept, instantiate_keptArgs] at h

/-- Equal instances are instances of one definition over arguments that are kept alike, and the
other way around. -/
theorem HasInstance.eq_iff {e : DefIndex} {args' : List Ty} {u : Ty} (ht : c.HasInstance d args t)
    (hu : c.HasInstance e args' u) : t = u ↔ d = e ∧ keptArgs d args = keptArgs e args' := by
  obtain ⟨n, ht⟩ := ht
  obtain ⟨m, hu⟩ := hu
  constructor
  · rintro rfl
    have hhead := (c.head?_of_instantiate ht).symm.trans (c.head?_of_instantiate hu)
    exact ⟨Option.some.inj hhead, (headArgs_eq_keptArgs ht).symm.trans (headArgs_eq_keptArgs hu)⟩
  · rintro ⟨rfl, hkept⟩
    rw [← instantiate_keptArgs] at ht hu
    rw [hkept] at ht
    have hsame := Fueled.eq_of_answers (fun h => c.instantiate_le h d (keptArgs d args')) ht hu
    exact Except.ok.inj hsame

/-- **Instantiation and introspection are inverse.** An instance names the definition that it was
made of and the arguments as they are kept, that is, with pointers and by-reference types in nominal
form unless the definition is a structural stand-in, and the definition over the arguments that it
names is the instance again; no other type is like this. Two instances are equal exactly if they
were made of one definition over arguments that are kept alike. -/
theorem instantiation_inverse (c : Catalog) :
    (∀ fuel d args t, c.instantiate fuel d args = some (.ok t) ↔
      t.head? = some d ∧ t.headArgs = keptArgs d args ∧
        c.instantiate fuel d t.headArgs = some (.ok t)) ∧
      ∀ d e args args' t u, c.HasInstance d args t → c.HasInstance e args' u →
        (t = u ↔ d = e ∧ keptArgs d args = keptArgs e args') := by
  refine ⟨?_, ?_⟩
  · intro fuel d args t
    exact instantiate_eq_ok_iff
  · intro d e args args' t u ht hu
    exact ht.eq_iff hu

/-- A list of pointers to integers tells that it is a list over the nominal form of the pointer. It
is made again from that, and it is the list over that form as well as over the pointer. -/
theorem pointerList_remade :
    (Ty.named 14 [(Ty.pointer (.nominal 19)).nominalForm]).headArgs =
        keptArgs 14 [.pointer (.nominal 19)] ∧
      baseLibrary.instantiate 9 14 [(Ty.pointer (.nominal 19)).nominalForm] =
        some (.ok (.named 14 [(Ty.pointer (.nominal 19)).nominalForm])) ∧
      keptArgs 14 [.pointer (.nominal 19)] =
        keptArgs 14 [(Ty.pointer (.nominal 19)).nominalForm] := by
  have hlist : baseLibrary.instantiate 9 14 [.pointer (.nominal 19)] =
      some (.ok (.named 14 [(Ty.pointer (.nominal 19)).nominalForm])) := rfl
  obtain ⟨hmade, hequal⟩ := instantiation_inverse baseLibrary
  obtain ⟨-, hkept, hagain⟩ := (hmade 9 14 _ _).mp hlist
  have hsame := hequal 14 14 _ _ _ _ ⟨9, hlist⟩ ⟨9, hagain⟩
  exact ⟨hkept, hagain, (hsame.mp rfl).2⟩

end TypeResolution.Catalog
