import TypeResolution.Proofs.Expr.Lexing

/-!
# The parser is exact

The parser accepts the texts that write an expression whose parameters fit in 32 bits, and nothing
else (`parse_eq_ok_iff`); and a text that writes no expression is refused at the one place where it
stops being the beginning of some expression (`isBoundary_of_run`).

Both are read off the tokens: how a text writes an expression is decided by what the scanner finds
in it. For the place of an error a text has to be compared with all the texts that begin like it,
and there the scanner gets in the way, because a name or a number is longer if the text behind it
goes on. What it cannot change is the kind of the token (`Lexeme.Takes.starts`), and that is all a
state looks at — except that a lone exclamation mark may still get its digits. So there the error
stands behind the mark and not in front of it.
-/

namespace TypeResolution

namespace Expr

open State

variable {src : String} {e : Expr}

/-! ## Runs

A run of the parser is a sequence of steps followed by a test whether it may stop here. It gets
stuck in one of two ways: there is a token that the state does not take, or there are no more tokens
and it may not stop yet. -/

namespace State

variable {stop : Nat} {s : State} {ls : List Lexeme}

/-- A run succeeds if its steps lead to a state that may stop with the expression. -/
theorem run_eq_ok_iff : run stop s ls = .ok e ↔
    ∃ s', s.steps (ls.map Lexeme.token) = some s' ∧ s'.finished? = some e := by
  fun_induction run stop s ls with
  | case1 s e' he' => simp [steps, he']
  | case2 s hnone => simp [steps, hnone]
  | case3 s l ls s' hstep ih => simp [steps, hstep, ih]
  | case4 s l ls hnone => simp [steps, hnone]

/-- A run fails at the end of the text, or at a token that cannot stand where it stands. -/
theorem exists_of_run_error {err : ParseError} (h : run stop s ls = .error err) :
    (∃ s', s.steps (ls.map Lexeme.token) = some s' ∧ err.offset = stop) ∨
      ∃ ls₁ l ls₂ s', ls = ls₁ ++ l :: ls₂ ∧ s.steps (ls₁.map Lexeme.token) = some s' ∧
        s'.step l.token = none ∧ err = s'.errorAt l := by
  fun_induction run stop s ls with
  | case1 s e' he' => cases h
  | case2 s hnone =>
    cases h
    exact .inl ⟨s, rfl, rfl⟩
  | case3 s l ls s' hstep ih =>
    rcases ih h with ⟨s'', hsteps, hoffset⟩ | ⟨ls₁, l', ls₂, s'', rfl, hsteps, hnone, herr⟩
    · exact .inl ⟨s'', by rw [List.map_cons, steps, hstep, Option.bind_some, hsteps], hoffset⟩
    · refine .inr ⟨l :: ls₁, l', ls₂, s'', rfl, ?_, hnone, herr⟩
      rw [List.map_cons, steps, hstep, Option.bind_some, hsteps]
  | case4 s l ls hnone =>
    cases h
    exact .inr ⟨[], l, ls, s, rfl, rfl, hnone, rfl⟩

end State

/-! ## What is accepted

Acceptance is first shown of tokens, from the grammar, and then of texts, from the scanner. That
parameters have to fit in 32 bits is checked afterwards, on the tokens, and it is the only thing
that the grammar does not know of. -/

/-- How a text writes an expression is decided by the tokens that the scanner finds in it. -/
theorem writes_iff : Writes src e ↔ Derives ((lexemes src).map Lexeme.token) e := by
  constructor
  · rintro ⟨ts, hspells, hderives⟩
    obtain ⟨s, hs, -⟩ := derives_iff.mp hderives
    rwa [lexemes, hspells.scan 0 hs]
  · intro hderives
    obtain ⟨s, hs, -⟩ := derives_iff.mp hderives
    exact ⟨_, spells_of_scan 0 _ hs, hderives⟩

/-- A text writes one expression at most. -/
theorem Writes.unique {e' : Expr} (h : Writes src e) (h' : Writes src e') : e = e' :=
  (writes_iff.mp h).unique (writes_iff.mp h')

/-- A text writes the expression with which the run over its tokens succeeds. -/
theorem writes_iff_run : Writes src e ↔
    run src.utf8ByteSize (.wantType []) (lexemes src) = .ok e := by
  rw [writes_iff, derives_iff, run_eq_ok_iff]

/-- The parameters in range are those of the tokens. -/
theorem Writes.inRange_iff (h : Writes src e) :
    (lexemes src).find? isOutOfRange = none ↔ ∀ i ∈ e.indices, i < indexLimit := by
  have hrange (l : Lexeme) :
      isOutOfRange l = false ↔ ∀ i, l.token.index? = some i → i < indexLimit := by
    cases hl : l.token <;> simp [isOutOfRange, hl, Token.index?]
  rw [(writes_iff.mp h).indices, List.find?_eq_none]
  simp only [Bool.not_eq_true, hrange, List.mem_filterMap, List.mem_map, forall_exists_index,
    and_imp, forall_apply_eq_imp_iff₂]
  exact ⟨fun hl i l hmem hi => hl l hmem i hi, fun hi l hmem i hindex => hi i l hmem hindex⟩

/-- **What the parser accepts**: the texts of expressions whose parameters fit in 32 bits. -/
theorem parse_eq_ok_iff :
    parse src = .ok e ↔ Writes src e ∧ ∀ i ∈ e.indices, i < indexLimit := by
  -- The parser runs first and checks the sizes of parameters afterwards. The three outcomes are a
  -- run that is stuck, a parameter that does not fit, and an expression.
  unfold parse
  split
  · next err hrun =>
    refine iff_of_false (fun h => by cases h) fun h => ?_
    rw [writes_iff_run.mp h.1] at hrun
    cases hrun
  · next e' hrun =>
    have hwrites := writes_iff_run.mpr hrun
    split
    · next l hfind =>
      refine iff_of_false (fun h => by cases h) fun h => ?_
      obtain rfl := hwrites.unique h.1
      rw [hwrites.inRange_iff.mpr h.2] at hfind
      cases hfind
    · next hfind =>
      constructor
      · rintro ⟨⟩
        exact ⟨hwrites, hwrites.inRange_iff.mp hfind⟩
      · rintro ⟨h, -⟩
        rw [hwrites.unique h]

/-! ## The beginnings of expressions

A text is viable if it can be continued to one that writes an expression. A boundary is a place in a
text up to which it is viable, and behind which it is not, whatever follows. -/

/-- A text can be continued to an expression. -/
def IsViable (p : String) : Prop := ∃ rest e, Writes (p ++ rest) e

/-- The place up to which a text is the beginning of an expression, and no further. -/
def IsBoundary (src : String) (offset : Nat) : Prop :=
  ∃ p q : String, src = p ++ q ∧ p.utf8ByteSize = offset ∧ IsViable p ∧
    (q = "" ∨ ∃ c r, q = String.singleton c ++ r ∧ ¬ IsViable (p.push c))

/-- A boundary, for the characters of a text. -/
theorem isBoundary_ofList {p q : List Char} (hp : IsViable (String.ofList p))
    (hq : ∀ c r, q = c :: r → ¬ IsViable (String.ofList (p ++ [c]))) :
    IsBoundary (String.ofList (p ++ q)) (Lexeme.bytes p) := by
  refine ⟨String.ofList p, String.ofList q, String.ofList_append, Lexeme.utf8ByteSize_ofList p, hp,
    ?_⟩
  cases q with
  | nil => exact .inl rfl
  | cons c r =>
    refine .inr ⟨c, String.ofList r, ?_, ?_⟩
    · rw [String.singleton_eq_ofList, ← String.ofList_append, List.singleton_append]
    · rw [String.push_eq_append, String.singleton_eq_ofList, ← String.ofList_append]
      exact hq c r rfl

/-- What the parser gets through is the beginning of an expression. -/
theorem isViable_of_steps {p cs : List Char} {ts : List Token} {s : State}
    (hspells : Spells ts (p ++ cs)) (hs : (wantType []).steps ts = some s) :
    IsViable (String.ofList p) := by
  obtain ⟨us, ds, s', e, hds, -, hsteps, he⟩ := s.canFinish
  refine ⟨String.ofList (cs ++ ds), e, ts ++ us, ?_, derives_iff.mpr ⟨s', ?_, he⟩⟩
  · rw [← String.ofList_append, String.toList_ofList, ← List.append_assoc]
    exact hspells.append hds
  · rw [steps_append, hs, Option.bind_some, hsteps]

/-- A text does not begin an expression if the parser gets stuck on it whatever comes behind it. -/
theorem not_isViable {p w : List Char} {ts : List Token} {s : State}
    (hs : (wantType []).steps ts = some s)
    (hstuck : ∀ q, ∃ t us, (Lexeme.scan 0 (p ++ (w ++ q))).map Lexeme.token = ts ++ t :: us ∧
      s.step t = none) : ¬ IsViable (String.ofList (p ++ w)) := by
  rintro ⟨rest, e, hwrites⟩
  obtain ⟨s', hsteps, -⟩ := derives_iff.mp (writes_iff.mp hwrites)
  obtain ⟨t, us, htokens, hnone⟩ := hstuck rest.toList
  rw [lexemes, String.toList_append, String.toList_ofList, List.append_assoc, htokens, steps_append,
    hs, Option.bind_some, steps, hnone] at hsteps
  cases hsteps

end Expr

/-! ## The place of an error

The parser reports where a token began that it could not take. Any text that begins in the same way
up to one character more has, at that place, a token of the same kind, and so the parser gets stuck
on it too. Hence no continuation can help. -/

/-- What a token and the character that it begins with tell of each other. -/
def Token.Starts (c : Char) : Token → Prop
  | .name _ => Lexeme.isNameChar c = true
  | .param _ => c = '!'
  | .bang => c = '!'
  | .symbol d => d = c ∧ Lexeme.isNameChar c = false ∧ c ≠ '!'

/-- The first character of a token decides its kind. -/
theorem Lexeme.Takes.starts {t : Token} {w rest : List Char} {c : Char} {q : List Char}
    (h : Takes t w rest) (hc : w ++ rest = c :: q) : isBlank c = false ∧ t.Starts c := by
  -- Names begin with name characters, parameters and lone marks with the mark, and a symbol with
  -- itself.
  cases h with
  | name hne hrun hrest =>
    obtain ⟨d, run, rfl⟩ := List.exists_cons_of_ne_nil hne
    obtain ⟨rfl, -⟩ := List.cons.inj hc
    have hd := hrun d List.mem_cons_self
    exact ⟨isBlank_of_isNameChar hd, hd⟩
  | bang hrest =>
    obtain ⟨rfl, -⟩ := List.cons.inj hc
    exact ⟨by decide, rfl⟩
  | param hne hdigits hrest =>
    obtain ⟨rfl, -⟩ := List.cons.inj hc
    exact ⟨by decide, rfl⟩
  | symbol hblank hname hbang =>
    obtain ⟨rfl, -⟩ := List.cons.inj hc
    exact ⟨hblank, rfl, hname, hbang⟩

/-- A character that is a token of its own begins no other one. -/
theorem Token.Starts.eq_symbol {t : Token} {c d : Char} (hd : (symbol d).Starts c)
    (ht : t.Starts c) : t = symbol d := by
  obtain ⟨rfl, hname, hbang⟩ := hd
  cases t with
  | name text => exact absurd (ht.symm.trans hname) Bool.noConfusion
  | param index => exact absurd ht hbang
  | bang => exact absurd ht hbang
  | symbol d' => rw [ht.1]

namespace Expr

open State

/-- Whether a token can stand in a state is decided by the character that it begins with, except
that digits may still come behind an exclamation mark where a type has to come. -/
theorem State.step_eq_none_of_starts {s : State} {t t' : Token} {c : Char} (ht : t.Starts c)
    (ht' : t'.Starts c) (hnone : s.step t = none)
    (hbang : ¬ (t = .bang ∧ ∃ outer, s = .wantType outer)) : s.step t' = none := by
  cases hs : s.step t' with
  | none => rfl
  | some s' =>
    -- A state looks at the kind of the token only. The one kind for which the first character is
    -- not enough is the mark, where a parameter may follow or not.
    cases s with
    | wantType outer =>
      cases t with
      | name text => cases hnone
      | param index => cases hnone
      | bang => exact absurd ⟨rfl, outer, rfl⟩ hbang
      | symbol d =>
        obtain rfl := ht.eq_symbol ht'
        cases hs
    | _ =>
      obtain ⟨d, -, rfl⟩ := mark_of_step hs (fun _ h => by cases h)
      obtain rfl := ht'.eq_symbol ht
      rw [hnone] at hs
      cases hs

section

variable {p q : List Char} {ts : List Token} {offset : Nat}

/-- A token that cannot stand where it stands is where the beginnings of expressions end. -/
theorem isBoundary_of_stuck {c : Char} {s : State} {t : Token} (hspells : Spells ts p)
    (hs : (wantType []).steps ts = some s) (hblank : Lexeme.isBlank c = false)
    (hcut : ∀ q', (Lexeme.scan 0 (p ++ c :: q')).map Lexeme.token =
      ts ++ (Lexeme.scan offset (c :: q')).map Lexeme.token)
    (hstarts : t.Starts c) (hnone : s.step t = none)
    (hbang : ¬ (t = .bang ∧ ∃ outer, s = .wantType outer)) :
    IsBoundary (String.ofList (p ++ c :: q)) (Lexeme.bytes p) := by
  refine isBoundary_ofList ?_ ?_
  · rw [← List.append_nil p] at hspells
    exact isViable_of_steps hspells hs
  · rintro _ _ ⟨⟩
    refine not_isViable hs fun q' => ?_
    obtain ⟨t', w, rest, hsplit, htakes⟩ := Lexeme.exists_takes hblank q'
    refine ⟨t', (Lexeme.scan (offset + Lexeme.bytes w) rest).map Lexeme.token, ?_, ?_⟩
    · rw [List.singleton_append, hcut q', hsplit, htakes.scan, List.map_cons]
    · exact step_eq_none_of_starts hstarts (htakes.starts hsplit.symm).2 hnone hbang

/-- Behind an exclamation mark where a type has to come, digits would still have been possible. -/
theorem isBoundary_of_bang {outer : List Frame} (hspells : Spells ts p)
    (hs : (wantType []).steps ts = some (.wantType outer))
    (hcut : ∀ q', (Lexeme.scan 0 (p ++ '!' :: q')).map Lexeme.token =
      ts ++ (Lexeme.scan offset ('!' :: q')).map Lexeme.token)
    (hq : Lexeme.Separate Char.isDigit q) :
    IsBoundary (String.ofList (p ++ '!' :: q)) (Lexeme.bytes p + 1) := by
  have hsplit : p ++ '!' :: q = (p ++ ['!']) ++ q := List.append_cons p '!' q
  have hbytes : Lexeme.bytes p + 1 = Lexeme.bytes (p ++ ['!']) := (Lexeme.bytes_append p ['!']).symm
  rw [hsplit, hbytes]
  -- With a digit the mark is a parameter, so the text is viable up to here.
  refine isBoundary_ofList ?_ ?_
  · have hzero : ['0'] ≠ [] := List.cons_ne_nil _ _
    have hdigit : ∀ c ∈ ['0'], c.isDigit = true := List.forall_mem_singleton.mpr (by decide)
    have hspelled := hspells.append (.token (.param hzero hdigit))
    rw [List.append_cons p '!' ['0']] at hspelled
    refine isViable_of_steps hspelled (s := .afterType (.param 0) outer) ?_
    rw [steps_append, hs]
    rfl
  · rintro d r rfl
    rw [List.append_assoc]
    refine not_isViable hs fun q' => ?_
    have htakes : Lexeme.Takes .bang ['!'] (d :: q') := .bang fun c rest hc => by
      obtain ⟨rfl, -⟩ := List.cons.inj hc
      exact hq d r rfl
    refine ⟨.bang, (Lexeme.scan (offset + 1) (d :: q')).map Lexeme.token, ?_, rfl⟩
    exact (hcut (d :: q')).trans
      (congrArg (fun ls => ts ++ ls.map Lexeme.token) (htakes.scan offset))

end

/-- **The place of an error.** The text in front of it is the beginning of an expression, and the
text up to and including the character that stands there is not. -/
theorem isBoundary_of_run {src : String} {err : ParseError}
    (h : run src.utf8ByteSize (.wantType []) (lexemes src) = .error err) :
    IsBoundary src err.offset := by
  rcases exists_of_run_error h with ⟨s, hs, hoffset⟩ | ⟨ls₁, l, ls₂, s, hls, hs, hnone, rfl⟩
  · -- the text ends too early
    have hspells : Spells ((lexemes src).map Lexeme.token) (src.toList ++ []) := by
      rw [List.append_nil]
      exact spells_of_scan 0 src.toList hs
    have hviable := isViable_of_steps hspells hs
    rw [String.ofList_toList] at hviable
    exact ⟨src, "", String.append_empty.symm, hoffset.symm, hviable, .inl rfl⟩
  · obtain ⟨p, w, rest, hsrc, hl, htakes, hcut⟩ := exists_of_scan 0 src.toList hls
    obtain ⟨c, q, hq⟩ := List.exists_cons_of_ne_nil
      (List.append_ne_nil_of_left_ne_nil htakes.ne_nil rest)
    obtain ⟨hblank, hstarts⟩ := htakes.starts hq
    have hspells : Spells (ls₁.map Lexeme.token) p := by
      have hscan := hcut c q [] hq (fun _ _ h => by cases h)
      rw [List.append_nil, Lexeme.scan, List.append_nil] at hscan
      rw [← hscan] at hs ⊢
      exact spells_of_scan 0 p hs
    have hcut (q' : List Char) : (Lexeme.scan 0 (p ++ c :: q')).map Lexeme.token =
        ls₁.map Lexeme.token ++
          (Lexeme.scan (0 + Lexeme.bytes p) (c :: q')).map Lexeme.token := by
      rw [hcut c q (c :: q') hq (fun _ _ h => (List.cons.inj h).1.symm), List.map_append]
    obtain rfl : src = String.ofList (p ++ c :: q) := by rw [← hq, ← hsrc, String.ofList_toList]
    by_cases hbang : l.token = .bang ∧ ∃ outer, s = .wantType outer
    · obtain ⟨hbang, outer, rfl⟩ := hbang
      have hoffset : (errorAt (.wantType outer) l).offset = l.offset + l.length := by
        simp only [errorAt, hbang]
      rw [hbang] at htakes hl
      cases htakes with
      | bang hrest =>
        obtain ⟨rfl, rfl⟩ := List.cons.inj hq
        rw [hoffset, hl, Nat.zero_add]
        exact isBoundary_of_bang hspells hs hcut hrest
    · have hoffset : (s.errorAt l).offset = Lexeme.bytes p := by
        unfold errorAt
        split
        · next outer htoken => exact absurd ⟨htoken, outer, rfl⟩ hbang
        · rw [hl, Nat.zero_add]
      rw [hoffset]
      exact isBoundary_of_stuck hspells hs hblank hcut hstarts hnone hbang

/-- **Exactness of the parser.** It accepts exactly the ways of writing an expression whose
parameters fit in 32 bits, and a text writes one expression at most. A text that writes none is
refused, and the place of the error is where it stops being the beginning of an expression. -/
theorem parse_exact (src : String) :
    (∀ e, parse src = .ok e ↔ Writes src e ∧ ∀ i ∈ e.indices, i < indexLimit) ∧
      (∀ e e', Writes src e → Writes src e' → e = e') ∧
      ((∀ e, ¬ Writes src e) → ∃ err, parse src = .error err ∧ IsBoundary src err.offset) := by
  refine ⟨fun e => parse_eq_ok_iff, fun e e' h h' => h.unique h', fun hnone => ?_⟩
  cases hrun : run src.utf8ByteSize (.wantType []) (lexemes src) with
  | ok e => exact absurd (writes_iff_run.mpr hrun) (hnone e)
  | error err => exact ⟨err, by rw [parse, hrun], isBoundary_of_run hrun⟩

end Expr

end TypeResolution
