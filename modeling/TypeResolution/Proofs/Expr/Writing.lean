import Mathlib.Data.List.Forall2
import TypeResolution.Catalog.Rendering
import TypeResolution.Proofs.Expr.Exactness

/-!
# Putting texts together

The ways in which a text is made of others when a type is written down — arguments in angle
brackets, the brackets of an array, an asterisk, an ampersand — are ways of writing an expression
that is made of the others' expressions.

What is shown is always that there are tokens which the text spells and the grammar derives. A text
that is put together spells the tokens of its parts one behind the other. No blanks are needed in
between, since every part after the first begins with a mark.
-/

namespace TypeResolution.Expr

/-! ## Atoms

A parameter is written with its number, a name as it is. -/

/-- A number is written with its decimal digits. -/
theorem writes_param (index : Nat) : Writes ("!" ++ toString index) (.param index) := by
  have hdigits : ∀ c ∈ Nat.toDigits 10 index, c.isDigit = true := fun c hc =>
    Nat.isDigit_of_mem_toDigits (by decide) (by decide) hc
  have hdecimal : Lexeme.decimal (Nat.toDigits 10 index) = index := by
    rw [Lexeme.decimal, ← Nat.ofDigitChars_eq_foldl, Nat.ofDigitChars_ten_toDigits]
  have hspelled : (Token.param (Lexeme.decimal (Nat.toDigits 10 index))).Spelled
      ('!' :: Nat.toDigits 10 index) := .param Nat.toDigits_ne_nil hdigits
  rw [hdecimal] at hspelled
  refine ⟨[.param index], ?_, .param index⟩
  have hsrc : ("!" ++ toString index).toList = '!' :: Nat.toDigits 10 index := by
    rw [Nat.toString_eq_ofList_toDigits, String.toList_append]
    exact congrArg _ String.toList_ofList
  rw [hsrc]
  exact .token hspelled

/-- A text of name characters spells the one name. -/
theorem spells_name {text : String} (hne : text ≠ "")
    (hchars : ∀ c ∈ text.toList, Lexeme.isNameChar c = true) :
    Spells [.name text] text.toList := by
  have hspelled : (Token.name (String.ofList text.toList)).Spelled text.toList :=
    .name (fun h => hne (String.toList_eq_nil_iff.mp h)) hchars
  rw [String.ofList_toList] at hspelled
  exact .token hspelled

/-- It writes the definition of that name, without arguments. -/
theorem writes_name {text : String} (hne : text ≠ "")
    (hchars : ∀ c ∈ text.toList, Lexeme.isNameChar c = true) : Writes text (.named text []) :=
  ⟨[.name text], spells_name hne hchars, .name text⟩

/-! ## Suffixes

A pointer, a reference and an array are written behind what they are made of. -/

section

variable {src : String} {e : Expr}

/-- A mark spells itself. -/
theorem spells_mark {c : Char} (hc : c ∈ Token.marks) : Spells [.symbol c] [c] :=
  .token (.symbol hc)

/-- A row of marks spells as many tokens. -/
theorem spells_replicate {c : Char} (hc : c ∈ Token.marks) (n : Nat) :
    Spells (List.replicate n (.symbol c)) (List.replicate n c) := by
  induction n with
  | zero => exact .empty
  | succ n ih => exact (spells_mark hc).append ih

/-- An asterisk makes it a pointer. -/
theorem Writes.pointer (h : Writes src e) : Writes (src ++ "*") (.pointer e) := by
  obtain ⟨ts, hspells, hderives⟩ := h
  refine ⟨ts ++ [.symbol '*'], ?_, hderives.pointer⟩
  rw [String.toList_append]
  exact hspells.append (spells_mark (by decide))

/-- An ampersand makes it a reference. -/
theorem Writes.byRef (h : Writes src e) : Writes (src ++ "&") (.byRef e) := by
  obtain ⟨ts, hspells, hderives⟩ := h
  refine ⟨ts ++ [.symbol '&'], ?_, hderives.byRef⟩
  rw [String.toList_append]
  exact hspells.append (spells_mark (by decide))

/-- Brackets make it an array, with a comma less than its rank. -/
theorem Writes.array (h : Writes src e) (commas : Nat) :
    Writes (src ++ rankBrackets (commas + 1)) (.array e (commas + 1)) := by
  obtain ⟨ts, hspells, hderives⟩ := h
  refine ⟨_, ?_, hderives.array commas⟩
  have hbrackets : (rankBrackets (commas + 1)).toList =
      '[' :: (List.replicate commas ',' ++ [']']) := by
    rw [rankBrackets, String.toList_append, String.toList_append, Nat.add_sub_cancel]
    exact congrArg (fun cs => '[' :: (cs ++ [']'])) String.toList_ofList
  rw [String.toList_append, hbrackets, List.append_assoc, List.cons_append]
  have hcommas : Spells (List.replicate commas (.symbol ',')) (List.replicate commas ',') :=
    spells_replicate (by decide) commas
  have hclosing : Spells [.symbol ']'] [']'] := spells_mark (by decide)
  exact hspells.append ((spells_mark (c := '[') (by decide)).append (hcommas.append hclosing))

end

/-! ## Arguments

Arguments are separated by a comma and a blank. The blank belongs to the spelling only: no token
stands for it. -/

/-- Behind the comma between two arguments there is a blank. -/
theorem spells_comma : Spells [.symbol ','] [',', ' '] :=
  (spells_mark (c := ',') (by decide)).append (.nil (List.forall_mem_singleton.mpr (by decide)))

/-- Arguments are written with commas between them. -/
theorem spells_args {texts : List String} {es : List Expr} (h : List.Forall₂ Writes texts es)
    (hne : es ≠ []) :
    ∃ ts, Spells ts (commaSeparated texts).toList ∧ DerivesArgs ts es := by
  induction h with
  | nil => exact absurd rfl hne
  | @cons text e texts es he hes ih =>
    obtain ⟨ts, hspells, hderives⟩ := he
    cases hes with
    | nil => exact ⟨ts, by rwa [commaSeparated, String.intercalate_singleton], .last hderives⟩
    | @cons text' e' texts es _ _ =>
      obtain ⟨us, hspells', hderives'⟩ := ih (List.cons_ne_nil _ _)
      refine ⟨ts ++ .symbol ',' :: us, ?_, .cons hderives hderives'⟩
      rw [commaSeparated, String.intercalate_cons_cons, String.toList_append,
        String.toList_append, List.append_assoc]
      exact hspells.append (spells_comma.append hspells')

/-- A name is written in front of its arguments, of which there may be none. -/
theorem writes_named {text : String} (hne : text ≠ "")
    (hchars : ∀ c ∈ text.toList, Lexeme.isNameChar c = true) {texts : List String} {es : List Expr}
    (h : List.Forall₂ Writes texts es) :
    Writes (text ++ angleBracketed texts) (.named text es) := by
  cases h with
  | nil =>
    rw [angleBracketed, String.append_empty]
    exact writes_name hne hchars
  | @cons text' e texts es he hes =>
    obtain ⟨ts, hspells, hderives⟩ := spells_args (.cons he hes) (List.cons_ne_nil _ _)
    refine ⟨_, ?_, .applied text hderives⟩
    have hbrackets : angleBracketed (text' :: texts) =
      "<" ++ commaSeparated (text' :: texts) ++ ">" := rfl
    rw [hbrackets, String.toList_append, String.toList_append, String.toList_append]
    exact (spells_name hne hchars).append
      (((spells_mark (c := '<') (by decide)).append hspells).append (spells_mark (by decide)))

end TypeResolution.Expr
