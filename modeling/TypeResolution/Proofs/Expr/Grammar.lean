import TypeResolution.Expr.Parser

/-!
# The grammar of type expressions

Which token sequences are expressions, said without the parser (`Expr.Derives`), and what its states
mean: a state stands for all that has been read on the way to it (`State.Reached`), as pieces that
the grammar derives. A transition keeps this up (`State.Reached.step`), so the parser accepts
nothing but expressions. Conversely it reads every expression without getting stuck
(`Expr.Derives.steps`), so where it does get stuck no expression goes on; and it can always be led
to an end (`State.canFinish`), so everything that it reads is the beginning of an expression.

The parser is a pushdown automaton: it has a state for what it is in the middle of, and a stack of
definitions whose arguments it is reading. Both directions of its correctness are inductions, but on
different things: on the steps for what is accepted, on the derivation for what is read. The grammar
is unambiguous, and that comes for free, since a derivation determines the run and the run
determines the expression (`Derives.unique`).
-/

namespace TypeResolution

/-! ## Spelling

A text spells a sequence of tokens if it consists of the spellings of the tokens, one after another,
with any number of blanks in between. The relation is not a function in either direction. -/

/-- The characters that are tokens of expressions. -/
def Token.marks : List Char := ['<', '>', ',', '[', ']', '*', '&']

/-- A token of expressions as it is written. -/
inductive Token.Spelled : Token → List Char → Prop
  /-- a name: at least one of its characters -/
  | name {cs : List Char} (hne : cs ≠ []) (hcs : ∀ c ∈ cs, Lexeme.isNameChar c = true) :
    Spelled (.name (String.ofList cs)) cs
  /-- an exclamation mark, directly followed by the digits of the position -/
  | param {digits : List Char} (hne : digits ≠ []) (hdigits : ∀ c ∈ digits, c.isDigit = true) :
    Spelled (.param (Lexeme.decimal digits)) ('!' :: digits)
  /-- a mark -/
  | symbol {c : Char} (hc : c ∈ Token.marks) : Spelled (.symbol c) [c]

/-- Tokens as they are written, with any number of blanks before, between and behind them. -/
inductive Spells : List Token → List Char → Prop
  /-- blanks alone -/
  | nil {blanks : List Char} (hblanks : ∀ c ∈ blanks, Lexeme.isBlank c = true) : Spells [] blanks
  /-- blanks, a token, and what stands behind it -/
  | cons {blanks w cs : List Char} {t : Token} {ts : List Token}
    (hblanks : ∀ c ∈ blanks, Lexeme.isBlank c = true) (ht : t.Spelled w) (hts : Spells ts cs) :
    Spells (t :: ts) (blanks ++ w ++ cs)

namespace Spells

variable {ts us : List Token} {cs ds : List Char}

/-- Nothing at all. -/
theorem empty : Spells [] [] := .nil fun _ hc => absurd hc List.not_mem_nil

/-- Blanks may be added in front. -/
theorem blanks (h : Spells ts cs) {bs : List Char} (hbs : ∀ c ∈ bs, Lexeme.isBlank c = true) :
    Spells ts (bs ++ cs) := by
  cases h with
  | nil hblanks => exact .nil fun c hc => (List.mem_append.mp hc).elim (hbs c) (hblanks c)
  | cons hblanks ht hts =>
    rw [← List.append_assoc, ← List.append_assoc]
    exact .cons (fun c hc => (List.mem_append.mp hc).elim (hbs c) (hblanks c)) ht hts

/-- Two spellings may be put one behind the other. -/
theorem append (h : Spells ts cs) (h' : Spells us ds) : Spells (ts ++ us) (cs ++ ds) := by
  induction h with
  | nil hblanks => exact h'.blanks hblanks
  | cons hblanks ht _ ih =>
    rw [List.append_assoc]
    exact .cons hblanks ht ih

/-- A token alone. -/
theorem token {t : Token} {w : List Char} (h : t.Spelled w) : Spells [t] w := by
  have hnone : ∀ c ∈ ([] : List Char), Lexeme.isBlank c = true := fun _ hc =>
    absurd hc List.not_mem_nil
  have hspells := Spells.cons hnone h empty
  rwa [List.nil_append, List.append_nil] at hspells

end Spells

namespace Expr

/-! ## Derivations

One rule for each way in which an expression may be written, over sequences of tokens. The arguments
of a definition are a sequence of their own, separated by commas. For the automaton they also come
in parts: those that are complete, with a comma behind each (`DerivesEarlier`), and the one that is
being read. -/

mutual
/-- The token sequences of an expression. -/
inductive Derives : List Token → Expr → Prop
  /-- a parameter -/
  | param (index : Nat) : Derives [.param index] (.param index)
  /-- a name without arguments -/
  | name (name : String) : Derives [.name name] (.named name [])
  /-- a name with arguments in angle brackets -/
  | applied (name : String) {ts : List Token} {es : List Expr} (hargs : DerivesArgs ts es) :
    Derives (.name name :: .symbol '<' :: ts ++ [.symbol '>']) (.named name es)
  /-- an array: the brackets hold one comma less than it has dimensions -/
  | array {ts : List Token} {e : Expr} (helem : Derives ts e) (commas : Nat) :
    Derives (ts ++ .symbol '[' :: List.replicate commas (.symbol ',') ++ [.symbol ']'])
      (.array e (commas + 1))
  /-- a pointer -/
  | pointer {ts : List Token} {e : Expr} (helem : Derives ts e) :
    Derives (ts ++ [.symbol '*']) (.pointer e)
  /-- a by-reference type -/
  | byRef {ts : List Token} {e : Expr} (helem : Derives ts e) :
    Derives (ts ++ [.symbol '&']) (.byRef e)

/-- The token sequences of arguments, of which there is at least one, with commas between them. -/
inductive DerivesArgs : List Token → List Expr → Prop
  /-- the last argument -/
  | last {ts : List Token} {e : Expr} (he : Derives ts e) : DerivesArgs ts [e]
  /-- an argument and those behind it -/
  | cons {ts us : List Token} {e : Expr} {es : List Expr} (he : Derives ts e)
    (hes : DerivesArgs us es) : DerivesArgs (ts ++ .symbol ',' :: us) (e :: es)
end

/-- The token sequences of arguments that have a comma behind each of them. -/
inductive DerivesEarlier : List Token → List Expr → Prop
  /-- no argument yet -/
  | nil : DerivesEarlier [] []
  /-- an argument and those behind it -/
  | cons {ts us : List Token} {e : Expr} {es : List Expr} (he : Derives ts e)
    (hes : DerivesEarlier us es) : DerivesEarlier (ts ++ .symbol ',' :: us) (e :: es)

/-- Behind complete arguments stands another one, with its comma. -/
theorem DerivesEarlier.snoc {ts us : List Token} {e : Expr} {es : List Expr}
    (h : DerivesEarlier ts es) (he : Derives us e) :
    DerivesEarlier (ts ++ us ++ [.symbol ',']) (es ++ [e]) := by
  induction h with
  | nil => exact .cons he .nil
  | cons he' _ ih => simpa using DerivesEarlier.cons he' ih

/-- Behind arguments with commas the last argument may stand. -/
theorem DerivesEarlier.args {ts us : List Token} {e : Expr} {es : List Expr}
    (h : DerivesEarlier ts es) (he : Derives us e) : DerivesArgs (ts ++ us) (es ++ [e]) := by
  induction h with
  | nil => exact .last he
  | cons he' _ ih => simpa using DerivesArgs.cons he' ih

/-! ## Parameters

What parameters an expression mentions can be read from its tokens, in the same order. -/

mutual
/-- The parameters of an expression from left to right. -/
def indices : Expr → List Nat
  | .param index => [index]
  | .named _ args => indicesAll args
  | .array elem _ => elem.indices
  | .pointer elem => elem.indices
  | .byRef elem => elem.indices

/-- The parameters of expressions from left to right. -/
def indicesAll : List Expr → List Nat
  | [] => []
  | e :: es => e.indices ++ indicesAll es
end

end Expr

/-- The position of the parameter that a token is, if it is one. -/
def Token.index? : Token → Option Nat
  | .param index => some index
  | _ => none

@[simp] theorem Token.index?_name (text : String) : (name text).index? = none := rfl

@[simp] theorem Token.index?_symbol (c : Char) : (symbol c).index? = none := rfl

namespace Expr

mutual
/-- An expression has the parameters that stand among its tokens. -/
theorem Derives.indices {ts : List Token} {e : Expr} :
    Derives ts e → e.indices = ts.filterMap Token.index?
  | .param index => rfl
  | .name name => rfl
  | .applied name hargs => by simp [Expr.indices, hargs.indices, List.filterMap_cons]
  | .array helem commas => by
    simp only [Expr.indices, helem.indices, List.filterMap_append, List.filterMap_cons,
      Token.index?_symbol, List.filterMap_replicate, List.filterMap_nil, List.append_nil]
  | .pointer helem => by simp [Expr.indices, helem.indices]
  | .byRef helem => by simp [Expr.indices, helem.indices]

/-- The same for the arguments of a definition. -/
theorem DerivesArgs.indices {ts : List Token} {es : List Expr} :
    DerivesArgs ts es → indicesAll es = ts.filterMap Token.index?
  | .last he => by simp [indicesAll, he.indices]
  | .cons he hes => by simp [indicesAll, he.indices, hes.indices, List.filterMap_cons]
end

/-! ## What a state stands for

For each state there is a condition on the tokens that have led to it. It says that they consist of
the complete parts on the stack, followed by what the state itself has read. The stack corresponds
to a list of opened definitions (`Opened`). -/

namespace State

/-- The state behind some tokens, if all of them can stand there. -/
def steps : State → List Token → Option State
  | s, [] => some s
  | s, t :: ts => (s.step t).bind fun s => steps s ts

/-- Steps may be taken in two parts. -/
theorem steps_append (s : State) (ts us : List Token) :
    s.steps (ts ++ us) = (s.steps ts).bind fun s => s.steps us := by
  induction ts generalizing s with
  | nil => rfl
  | cons t ts ih =>
    rw [List.cons_append, steps, steps, Option.bind_assoc]
    exact congrArg _ (funext fun s => ih s)

/-- Behind a name comes an opening bracket, or whatever may come behind a type. -/
theorem step_afterName (name : String) (outer : List Frame) (t : Token) :
    (afterName name outer).step t =
      if t = .symbol '<' then some (.wantType (⟨name, []⟩ :: outer))
      else afterTypeStep (.named name []) outer t := by
  split
  · next h => rw [h, State.step]
  · next h => rw [State.step]; exact h

/-- Between brackets there is room for a comma or for the bracket that closes them. -/
theorem step_inBrackets {e : Expr} {rank : Nat} {outer : List Frame} {t : Token} {s : State}
    (h : (inBrackets e rank outer).step t = some s) :
    t = .symbol ',' ∧ s = .inBrackets e (rank + 1) outer ∨
      t = .symbol ']' ∧ s = .afterType (.array e rank) outer := by
  unfold State.step at h
  split at h <;> simp_all

/-- What has been read of the definitions whose arguments are being read: the name, the opening
bracket and the earlier arguments of each. -/
inductive Opened : List Frame → List Token → Prop
  /-- no definition -/
  | nil : Opened [] []
  /-- a definition inside others -/
  | cons {outer : List Frame} {ts us : List Token} (name : String) {args : List Expr}
    (houter : Opened outer ts) (hargs : DerivesEarlier us args) :
    Opened (⟨name, args⟩ :: outer) (ts ++ .name name :: .symbol '<' :: us)

/-- What has been read on the way to a state. -/
inductive Reached : State → List Token → Prop
  /-- the beginning of a type -/
  | wantType {outer : List Frame} {ts : List Token} (h : Opened outer ts) :
    Reached (.wantType outer) ts
  /-- a name -/
  | afterName {outer : List Frame} {ts : List Token} (name : String) (h : Opened outer ts) :
    Reached (.afterName name outer) (ts ++ [.name name])
  /-- a type -/
  | afterType {outer : List Frame} {ts us : List Token} {e : Expr} (h : Opened outer ts)
    (he : Derives us e) : Reached (.afterType e outer) (ts ++ us)
  /-- a type, a bracket and some commas -/
  | inBrackets {outer : List Frame} {ts us : List Token} {e : Expr} (commas : Nat)
    (h : Opened outer ts) (he : Derives us e) :
    Reached (.inBrackets e (commas + 1) outer)
      (ts ++ us ++ .symbol '[' :: List.replicate commas (.symbol ','))

/-- What can stand behind a complete type. -/
theorem reached_afterTypeStep {outer : List Frame} {ts us : List Token} {e : Expr} {t : Token}
    {s : State} (h : Opened outer ts) (he : Derives us e) (hs : afterTypeStep e outer t = some s) :
    s.Reached (ts ++ us ++ [t]) := by
  -- One case for each token that may come behind a type. A closing bracket completes the innermost
  -- definition, and then the stack is shorter by one.
  unfold afterTypeStep at hs
  split at hs
  · -- an opening bracket
    obtain rfl := Option.some.inj hs
    exact .inBrackets 0 h he
  · obtain rfl := Option.some.inj hs
    rw [List.append_assoc]
    exact .afterType h (.pointer he)
  · obtain rfl := Option.some.inj hs
    rw [List.append_assoc]
    exact .afterType h (.byRef he)
  · -- a comma: the next argument of the innermost definition begins
    obtain rfl := Option.some.inj hs
    cases h with
    | cons name houter hargs =>
      have hopened := Opened.cons name houter (hargs.snoc he)
      simpa using Reached.wantType hopened
  · -- a closing bracket: the innermost definition is complete
    obtain rfl := Option.some.inj hs
    cases h with
    | cons name houter hargs =>
      have hreached := Reached.afterType houter (.applied name (hargs.args he))
      simpa using hreached
  · cases hs

/-- **A transition keeps up what a state stands for.** -/
theorem Reached.step {s s' : State} {ts : List Token} {t : Token} (h : s.Reached ts)
    (hs : s.step t = some s') : s'.Reached (ts ++ [t]) := by
  -- One case for each state, and in it one for each kind of token that the state takes.
  cases h with
  | wantType h =>
    cases t with
    | name text =>
      obtain rfl := Option.some.inj hs
      exact .afterName text h
    | param index =>
      obtain rfl := Option.some.inj hs
      exact .afterType h (.param index)
    | bang => cases hs
    | symbol c => cases hs
  | @afterName outer ts name h =>
    rw [step_afterName] at hs
    split at hs
    · next ht =>
      obtain rfl := Option.some.inj hs
      rw [ht, List.append_assoc]
      exact .wantType (.cons name h .nil)
    · exact reached_afterTypeStep h (.name name) hs
  | afterType h he => exact reached_afterTypeStep h he hs
  | @inBrackets outer ts us e commas h he =>
    rcases step_inBrackets hs with ⟨rfl, rfl⟩ | ⟨rfl, rfl⟩
    · have hreached := Reached.inBrackets (commas + 1) h he
      rw [List.replicate_succ'] at hreached
      simpa using hreached
    · simpa using Reached.afterType h (he.array commas)

/-- The condition is kept up along several steps. -/
theorem Reached.steps {s s' : State} {ts us : List Token} (h : s.Reached ts)
    (hs : s.steps us = some s') : s'.Reached (ts ++ us) := by
  induction us generalizing s ts with
  | nil =>
    obtain rfl := Option.some.inj hs
    rwa [List.append_nil]
  | cons t us ih =>
    obtain ⟨s₁, hstep, hs⟩ := Option.bind_eq_some_iff.mp hs
    simpa using ih (h.step hstep) hs

/-- Where the text may end, an expression has been read. -/
theorem Reached.derives {s : State} {ts : List Token} {e : Expr} (h : s.Reached ts)
    (he : s.finished? = some e) : Derives ts e := by
  -- The parser may stop behind a name or behind a type, and only if no definition is open.
  cases h with
  | afterName name h =>
    cases h with
    | nil =>
      obtain rfl := Option.some.inj he
      exact .name name
    | cons _ _ _ => cases he
  | afterType h hderives =>
    cases h with
    | nil =>
      obtain rfl := Option.some.inj he
      exact hderives
    | cons _ _ _ => cases he
  | wantType _ => cases he
  | inBrackets _ _ _ => cases he

/-! ## Expressions are read

The other direction goes by recursion on the derivation. A derived expression is read in whatever
state a type is wanted, and leads to a state behind it, with the same stack. -/

/-- Behind an expression: a complete type, or a name that may be taken as one. -/
def Behind (e : Expr) (outer : List Frame) (s : State) : Prop :=
  s = .afterType e outer ∨ ∃ name, e = .named name [] ∧ s = .afterName name outer

/-- Behind a type the same steps are possible in both of its states. -/
theorem Behind.step {e : Expr} {outer : List Frame} {s s' : State} {t : Token}
    (h : s.Behind e outer) (hs : afterTypeStep e outer t = some s') : s.step t = some s' := by
  rcases h with rfl | ⟨name, rfl, rfl⟩
  · exact hs
  · rw [step_afterName, if_neg, hs]
    rintro rfl
    cases hs

/-- The parser may stop behind a type, with that type. -/
theorem Behind.finished? {e : Expr} {s : State} (h : s.Behind e []) : s.finished? = some e := by
  rcases h with rfl | ⟨name, rfl, rfl⟩ <;> rfl

/-- Commas between brackets count dimensions. -/
theorem steps_commas (e : Expr) (rank : Nat) (outer : List Frame) (commas : Nat) :
    (inBrackets e rank outer).steps (List.replicate commas (.symbol ',')) =
      some (.inBrackets e (rank + commas) outer) := by
  induction commas generalizing rank with
  | zero => rfl
  | succ commas ih =>
    rw [List.replicate_succ, steps, State.step, Option.bind_some, ih, Nat.add_right_comm,
      Nat.add_assoc]

end State

open State

mutual
/-- **The parser reads every expression**, whatever it stands in. -/
theorem Derives.steps {ts : List Token} {e : Expr} :
    Derives ts e → ∀ outer, ∃ s, (wantType outer).steps ts = some s ∧ s.Behind e outer
  | .param index, outer => ⟨_, rfl, .inl rfl⟩
  | .name name, outer => ⟨_, rfl, .inr ⟨name, rfl, rfl⟩⟩
  | .applied name hargs, outer => ⟨_, hargs.steps name [] outer, .inl rfl⟩
  | .array helem commas, outer => by
    -- The element is read first, and then what stands behind it: one token, or a pair of brackets
    -- with commas in between.
    obtain ⟨s, hs, hbehind⟩ := helem.steps outer
    refine ⟨_, ?_, .inl rfl⟩
    rw [List.append_assoc, steps_append, hs, Option.bind_some, List.cons_append, State.steps,
      hbehind.step rfl, Option.bind_some, steps_append, steps_commas, Nat.add_comm]
    rfl
  | .pointer helem, outer => by
    obtain ⟨s, hs, hbehind⟩ := helem.steps outer
    refine ⟨_, ?_, .inl rfl⟩
    rw [steps_append, hs, Option.bind_some, State.steps, hbehind.step rfl]
    rfl
  | .byRef helem, outer => by
    obtain ⟨s, hs, hbehind⟩ := helem.steps outer
    refine ⟨_, ?_, .inl rfl⟩
    rw [steps_append, hs, Option.bind_some, State.steps, hbehind.step rfl]
    rfl

/-- Arguments are read up to the bracket that closes them. -/
theorem DerivesArgs.steps {ts : List Token} {es : List Expr} : DerivesArgs ts es →
    ∀ name args outer, (wantType (⟨name, args⟩ :: outer)).steps (ts ++ [.symbol '>']) =
      some (.afterType (.named name (args ++ es)) outer)
  | .last he, name, args, outer => by
    obtain ⟨s, hs, hbehind⟩ := he.steps (⟨name, args⟩ :: outer)
    rw [steps_append, hs, Option.bind_some, State.steps, hbehind.step rfl]
    rfl
  | @DerivesArgs.cons _ _ e _ he hes, name, args, outer => by
    obtain ⟨s, hs, hbehind⟩ := he.steps (⟨name, args⟩ :: outer)
    have hrest := hes.steps name (args ++ [e]) outer
    rw [List.append_assoc, steps_append, hs, Option.bind_some, List.cons_append, State.steps,
      hbehind.step rfl, Option.bind_some, hrest, List.append_assoc, List.singleton_append]
end

/-- From the first state, the parser gets through exactly the expressions. -/
theorem derives_iff {ts : List Token} {e : Expr} :
    Derives ts e ↔ ∃ s, (wantType []).steps ts = some s ∧ s.finished? = some e := by
  constructor
  · intro h
    obtain ⟨s, hs, hbehind⟩ := h.steps []
    exact ⟨s, hs, hbehind.finished?⟩
  · rintro ⟨s, hs, he⟩
    have hreached := (Reached.wantType .nil).steps hs
    exact hreached.derives he

/-- A token sequence belongs to one expression. -/
theorem Derives.unique {ts : List Token} {e e' : Expr} (h : Derives ts e) (h' : Derives ts e') :
    e = e' := by
  obtain ⟨s, hs, he⟩ := derives_iff.mp h
  obtain ⟨s', hs', he'⟩ := derives_iff.mp h'
  obtain rfl : s = s' := Option.some.inj (hs.symm.trans hs')
  exact Option.some.inj (he.symm.trans he')

/-! ## Texts

A text writes an expression if it spells a sequence of tokens that the grammar derives for it. From
every state that can be reached there is a way to such a text, the shortest being to close all that
is open. -/

/-- A text is a way of writing an expression. -/
def Writes (src : String) (e : Expr) : Prop := ∃ ts, Spells ts src.toList ∧ Derives ts e

namespace State

/-- Some text leads from a state to the end of an expression, without naming a parameter. -/
def CanFinish (s : State) : Prop :=
  ∃ us cs s' e, Spells us cs ∧ us.filterMap Token.index? = [] ∧ s.steps us = some s' ∧
    s'.finished? = some e

/-- One more token may be put in front. -/
theorem CanFinish.step {s s' : State} {t : Token} {w : List Char} (ht : t.Spelled w)
    (hindex : t.index? = none) (hs : s.step t = some s') (h : s'.CanFinish) : s.CanFinish := by
  obtain ⟨us, cs, s'', e, hcs, hindices, hsteps, he⟩ := h
  refine ⟨t :: us, w ++ cs, s'', e, (Spells.token ht).append hcs, ?_, ?_, he⟩
  · rw [List.filterMap_cons, hindex, hindices]
  · rw [steps, hs, Option.bind_some, hsteps]

/-- Closing brackets complete the definitions that are open. -/
theorem canFinish_afterType (e : Expr) (outer : List Frame) : (afterType e outer).CanFinish := by
  induction outer generalizing e with
  | nil => exact ⟨[], [], _, e, .empty, rfl, rfl, rfl⟩
  | cons frame outer ih => exact .step (.symbol (c := '>') (by decide)) rfl rfl (ih _)

/-- **Every state can be led to an end.** -/
theorem canFinish : ∀ s : State, s.CanFinish
  | .afterType e outer => canFinish_afterType e outer
  | .inBrackets e rank outer =>
    .step (.symbol (c := ']') (by decide)) rfl rfl (canFinish_afterType _ outer)
  | .afterName name [] =>
    ⟨[], [], _, _, .empty, rfl, rfl, rfl⟩
  | .afterName name (frame :: outer) =>
    .step (.symbol (c := '>') (by decide)) rfl rfl (canFinish_afterType _ outer)
  | .wantType outer =>
    have hname : (Token.name "T").Spelled ['T'] :=
      .name (List.cons_ne_nil _ _) (List.forall_mem_singleton.mpr (by decide))
    match outer with
    | [] => .step hname rfl rfl
        ⟨[], [], _, _, .empty, rfl, rfl, rfl⟩
    | _ :: outer =>
      .step hname rfl rfl
        (.step (.symbol (c := '>') (by decide)) rfl rfl (canFinish_afterType _ outer))

end State

end Expr

end TypeResolution
