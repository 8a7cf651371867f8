import Mathlib.Data.List.TakeWhile
import TypeResolution.Proofs.Expr.Grammar

/-!
# Texts and their tokens

Tokens may be spelled with blanks between them or without, so a text can be a spelling of several
token sequences: `ab` spells one name or two. In an expression no name follows a name or a
parameter, and that is why the scanner, which takes as long a token as it can, finds the tokens of
an expression whatever way they are spelled (`Spells.scan`), and conversely spells what it finds
(`spells_of_scan`).

The scanner never looks back, and ahead only to the end of a token. So a text can be cut in front of
any of its tokens, and what is found in the first part stays, as long as the second part begins with
the same character (`exists_of_scan`).
-/

namespace TypeResolution

namespace Lexeme

/-! ## Kinds of characters

There are blanks, characters of names, the exclamation mark and everything else. The kinds exclude
each other, and all characters of the first two take one byte. -/

/-- There are four blanks. -/
theorem isBlank_iff {c : Char} :
    isBlank c = true ↔ c = ' ' ∨ c = '\t' ∨ c = '\r' ∨ c = '\n' := by
  simp [isBlank, or_assoc]

/-- Blanks belong to no name. -/
theorem isNameChar_of_isBlank {c : Char} (h : isBlank c = true) : isNameChar c = false := by
  rcases isBlank_iff.mp h with rfl | rfl | rfl | rfl <;> decide

/-- A character of a name is no blank. -/
theorem isBlank_of_isNameChar {c : Char} (h : isNameChar c = true) : isBlank c = false := by
  cases hc : isBlank c with
  | false => rfl
  | true => rw [isNameChar_of_isBlank hc] at h; cases h

/-- Digits belong to names. -/
theorem isNameChar_of_isDigit {c : Char} (h : c.isDigit = true) : isNameChar c = true := by
  simp [isNameChar, Char.isAlphanum, h]

/-- A blank takes one byte. -/
theorem utf8Size_of_isBlank {c : Char} (h : isBlank c = true) : c.utf8Size = 1 := by
  rcases isBlank_iff.mp h with rfl | rfl | rfl | rfl <;> rfl

/-- Characters of names take one byte. -/
theorem utf8Size_of_isNameChar {c : Char} (h : isNameChar c = true) : c.utf8Size = 1 := by
  rw [Char.utf8Size_eq_one_iff]
  -- upper case, lower case, digits
  change (decide (c.val ≥ 'A'.val ∧ c.val ≤ 'Z'.val) ||
    decide (c.val ≥ 'a'.val) && decide (c.val ≤ 'z'.val) ||
    decide (c.val ≥ '0'.val) && decide (c.val ≤ '9'.val) ||
    c == '_' || c == '.' || c == '\x60') = true at h
  simp only [Bool.or_eq_true, Bool.and_eq_true, decide_eq_true_eq, beq_iff_eq] at h
  rcases h with ((((h | h) | h) | rfl) | rfl) | rfl
  · exact UInt32.le_trans h.2 (by decide)
  · exact UInt32.le_trans h.2 (by decide)
  · exact UInt32.le_trans h.2 (by decide)
  · decide
  · decide
  · decide

/-- The number of bytes of a text. -/
def bytes : List Char → Nat
  | [] => 0
  | c :: cs => c.utf8Size + bytes cs

/-- Two texts take the bytes of both together. -/
theorem bytes_append (cs ds : List Char) : bytes (cs ++ ds) = bytes cs + bytes ds := by
  induction cs with
  | nil => exact (Nat.zero_add _).symm
  | cons c cs ih => rw [List.cons_append, bytes, bytes, ih, Nat.add_assoc]

/-- In a text of name characters there are as many bytes as characters. -/
theorem bytes_eq_length {cs : List Char} (h : ∀ c ∈ cs, isNameChar c = true) :
    bytes cs = cs.length := by
  induction cs with
  | nil => rfl
  | cons c cs ih =>
    obtain ⟨hc, hcs⟩ := List.forall_mem_cons.mp h
    rw [bytes, utf8Size_of_isNameChar hc, ih hcs, List.length_cons, Nat.add_comm]

/-- The size of a string is the number of bytes of its characters. -/
theorem utf8ByteSize_ofList (cs : List Char) : (String.ofList cs).utf8ByteSize = bytes cs := by
  induction cs with
  | nil => rfl
  | cons c cs ih =>
    have hsplit : String.ofList (c :: cs) = String.singleton c ++ String.ofList cs := by
      rw [String.singleton_eq_ofList, ← String.ofList_append]
      rfl
    rw [hsplit, String.utf8ByteSize_append, String.utf8ByteSize_singleton, ih]
    rfl

/-! ## The scanner

A token takes characters as long as they are of its kind. So it is complete when the next one is
not, and the text behind it is separate from it (`Separate`). With this the scanner is a relation
between a text and what it takes (`Takes`), and every text without a leading blank has a first
token. -/

/-- No character of a text begins a run. -/
def Separate (p : Char → Bool) (cs : List Char) : Prop := ∀ c rest, cs = c :: rest → p c = false

/-- Where no name goes on, no number does. -/
theorem Separate.digits {cs : List Char} (h : Separate isNameChar cs) :
    Separate Char.isDigit cs := by
  intro c rest hcs
  cases hc : c.isDigit with
  | false => rfl
  | true => exact (isNameChar_of_isDigit hc).symm.trans (h c rest hcs)

/-- Whether a run goes on is decided by one character. -/
theorem Separate.cut {p : Char → Bool} {cs : List Char} {c : Char} {q q' : List Char}
    (h : Separate p (cs ++ c :: q)) (hq' : ∀ d r, q' = d :: r → d = c) : Separate p (cs ++ q') := by
  intro d r hd
  cases cs with
  | nil =>
    obtain rfl := hq' d r hd
    exact h d q rfl
  | cons b cs =>
    obtain rfl : b = d := (List.cons.inj hd).1
    exact h b _ rfl

/-- What is left behind a run is separate from it. -/
theorem separate_dropWhile (p : Char → Bool) (cs : List Char) : Separate p (cs.dropWhile p) := by
  intro c rest h
  have hne : cs.dropWhile p ≠ [] := by rw [h]; exact List.cons_ne_nil _ _
  simpa [h] using List.head_dropWhile_not p hne

/-- A run that is separate from what follows is taken as a whole. -/
theorem takeWhile_append {p : Char → Bool} {run cs : List Char} (hrun : ∀ c ∈ run, p c = true)
    (hcs : Separate p cs) : (run ++ cs).takeWhile p = run ∧ (run ++ cs).dropWhile p = cs := by
  rw [List.takeWhile_append_of_pos hrun, List.dropWhile_append_of_pos hrun]
  cases cs with
  | nil => simp
  | cons c rest => simp [hcs c rest rfl]

/-- A token at the front of a text, the characters that make it, and what stands behind them: a name
or a number goes as far as it can. -/
inductive Takes : Token → List Char → List Char → Prop
  /-- a name -/
  | name {run rest : List Char} (hne : run ≠ []) (hrun : ∀ c ∈ run, isNameChar c = true)
    (hrest : Separate isNameChar rest) : Takes (.name (String.ofList run)) run rest
  /-- an exclamation mark without digits -/
  | bang {rest : List Char} (hrest : Separate Char.isDigit rest) : Takes .bang ['!'] rest
  /-- an exclamation mark with digits -/
  | param {digits rest : List Char} (hne : digits ≠ []) (hdigits : ∀ c ∈ digits, c.isDigit = true)
    (hrest : Separate Char.isDigit rest) : Takes (.param (decimal digits)) ('!' :: digits) rest
  /-- any other character -/
  | symbol {c : Char} {rest : List Char} (hblank : isBlank c = false) (hname : isNameChar c = false)
    (hbang : c ≠ '!') : Takes (.symbol c) [c] rest

section

variable {t : Token} {w rest : List Char}

/-- What stands at the front of a text is blank or belongs to a token. -/
theorem exists_takes {c : Char} (hblank : isBlank c = false) (cs : List Char) :
    ∃ t w rest, c :: cs = w ++ rest ∧ Takes t w rest := by
  -- The first character decides: a name, a mark with digits or without, or a symbol of its own.
  cases hname : isNameChar c with
  | true =>
    refine ⟨_, c :: cs.takeWhile isNameChar, cs.dropWhile isNameChar, ?_, .name ?_ ?_ ?_⟩
    · rw [List.cons_append, List.takeWhile_append_dropWhile]
    · exact List.cons_ne_nil _ _
    · exact List.forall_mem_cons.mpr ⟨hname, fun _ => List.mem_takeWhile_imp⟩
    · exact separate_dropWhile _ _
  | false =>
    by_cases hbang : c = '!'
    · obtain rfl := hbang
      by_cases hdigits : cs.takeWhile Char.isDigit = []
      · refine ⟨_, ['!'], cs, rfl, .bang ?_⟩
        have hseparate := separate_dropWhile Char.isDigit cs
        have hsplit := cs.takeWhile_append_dropWhile (p := Char.isDigit)
        rw [hdigits, List.nil_append] at hsplit
        rwa [hsplit] at hseparate
      · refine ⟨_, '!' :: cs.takeWhile Char.isDigit, cs.dropWhile Char.isDigit, ?_, .param ?_ ?_ ?_⟩
        · rw [List.cons_append, List.takeWhile_append_dropWhile]
        · exact hdigits
        · exact fun _ => List.mem_takeWhile_imp
        · exact separate_dropWhile _ _
    · exact ⟨_, [c], cs, rfl, .symbol hblank hname hbang⟩

namespace Takes

/-- A token takes at least one character. -/
theorem ne_nil (h : Takes t w rest) : w ≠ [] := by
  cases h with
  | name hne _ _ => exact hne
  | bang _ => exact List.cons_ne_nil _ _
  | param _ _ _ => exact List.cons_ne_nil _ _
  | symbol _ _ _ => exact List.cons_ne_nil _ _

/-- The token stays the same if the text is cut behind it and nothing or the same character comes
behind the cut. -/
theorem cut {p : List Char} {c : Char} {q q' : List Char} (h : Takes t w (p ++ c :: q))
    (hq' : ∀ d r, q' = d :: r → d = c) : Takes t w (p ++ q') := by
  cases h with
  | name hne hrun hrest => exact .name hne hrun (hrest.cut hq')
  | bang hrest => exact .bang (hrest.cut hq')
  | param hne hdigits hrest => exact .param hne hdigits (hrest.cut hq')
  | symbol hblank hname hbang => exact .symbol hblank hname hbang

/-- The scanner finds the token at the front. -/
theorem scan (h : Takes t w rest) (offset : Nat) :
    scan offset (w ++ rest) = ⟨t, offset, bytes w⟩ :: scan (offset + bytes w) rest := by
  -- In each case the run that the token takes is the one that the scanner cuts off.
  cases h with
  | name hne hrun hrest =>
    rw [bytes_eq_length hrun]
    obtain ⟨c, run, rfl⟩ := List.exists_cons_of_ne_nil hne
    obtain ⟨hc, hrun⟩ := List.forall_mem_cons.mp hrun
    obtain ⟨htake, hdrop⟩ := takeWhile_append hrun hrest
    rw [List.cons_append, Lexeme.scan, if_neg (by simp [isBlank_of_isNameChar hc]), if_pos hc,
      htake, hdrop]
  | bang hrest =>
    obtain ⟨htake, -⟩ := takeWhile_append (fun _ hc => absurd hc List.not_mem_nil) hrest
    rw [List.nil_append] at htake
    rw [List.singleton_append, Lexeme.scan, if_neg (by decide), if_neg (by decide), if_pos rfl,
      htake]
    rfl
  | param hne hdigits hrest =>
    obtain ⟨htake, hdrop⟩ := takeWhile_append hdigits hrest
    have hbytes (digits : List Char) : bytes ('!' :: digits) = 1 + bytes digits := rfl
    rw [hbytes, bytes_eq_length fun c hc => isNameChar_of_isDigit (hdigits c hc), List.cons_append,
      Lexeme.scan, if_neg (by decide), if_neg (by decide), if_pos rfl, htake, hdrop,
      ← Nat.add_assoc]
    exact if_neg hne
  | symbol hblank hname hbang =>
    rw [List.singleton_append, Lexeme.scan, if_neg (by simp [hblank]), if_neg (by simp [hname]),
      if_neg hbang]
    rfl

end Takes

/-- A blank is passed over. -/
theorem scan_blank (offset : Nat) {c : Char} (hc : isBlank c = true) (cs : List Char) :
    scan offset (c :: cs) = scan (offset + 1) cs := by
  rw [scan, if_pos hc]

/-- So are several of them. -/
theorem scan_blanks (offset : Nat) {bs : List Char} (hbs : ∀ c ∈ bs, isBlank c = true)
    (cs : List Char) : scan offset (bs ++ cs) = scan (offset + bs.length) cs := by
  induction bs generalizing offset with
  | nil => rfl
  | cons b bs ih =>
    obtain ⟨hb, hbs⟩ := List.forall_mem_cons.mp hbs
    rw [List.cons_append, scan_blank offset hb, ih (offset + 1) hbs, List.length_cons,
      Nat.add_assoc, Nat.add_comm 1]

/-- A text is empty, or begins with a blank, or with a token. -/
theorem scan_induction {motive : List Char → Prop} (nil : motive [])
    (blank : ∀ c cs, isBlank c = true → motive cs → motive (c :: cs))
    (token : ∀ t w rest, Takes t w rest → motive rest → motive (w ++ rest)) (cs : List Char) :
    motive cs := by
  -- On the length of the text, since a token takes several characters at once.
  induction h : cs.length using Nat.strongRecOn generalizing cs with
  | ind n ih =>
    subst h
    cases cs with
    | nil => exact nil
    | cons c cs =>
      cases hblank : isBlank c with
      | true => exact blank c cs hblank (ih _ (Nat.lt_succ_self _) cs rfl)
      | false =>
        obtain ⟨t, w, rest, hsplit, htakes⟩ := exists_takes hblank cs
        have hlength : rest.length < (c :: cs).length := by
          rw [hsplit, List.length_append]
          exact Nat.lt_add_of_pos_left (List.length_pos_iff.mpr htakes.ne_nil)
        rw [hsplit]
        exact token t w rest htakes (ih _ hlength rest rfl)

end

end Lexeme

/-! ## The tokens of an expression

The automaton is in a state behind a name exactly after a name, and there it takes marks only. So a
name is never followed by another one, and a spelling of an expression has a mark or an end behind
each name. -/

/-- The marks are neither blanks, nor in names, nor the exclamation mark. -/
theorem Token.of_mem_marks : ∀ c ∈ Token.marks,
    Lexeme.isBlank c = false ∧ Lexeme.isNameChar c = false ∧ c ≠ '!' := by
  have hall :
      (marks.all fun c => !Lexeme.isBlank c && !Lexeme.isNameChar c && c != '!') = true := by
    decide
  simpa [and_assoc] using hall

namespace Expr.State

/-- Behind a type only marks can stand. -/
theorem mark_of_afterTypeStep {e : Expr} {outer : List Frame} {t : Token} {s : State}
    (hs : afterTypeStep e outer t = some s) : ∃ c ∈ Token.marks, t = .symbol c := by
  unfold afterTypeStep at hs
  split at hs
  · exact ⟨_, by decide, rfl⟩
  · exact ⟨_, by decide, rfl⟩
  · exact ⟨_, by decide, rfl⟩
  · exact ⟨_, by decide, rfl⟩
  · exact ⟨_, by decide, rfl⟩
  · cases hs

/-- Where no type has to come, only marks can stand. -/
theorem mark_of_step {s s' : State} {t : Token} (hs : s.step t = some s')
    (hwant : ∀ outer, s ≠ .wantType outer) : ∃ c ∈ Token.marks, t = .symbol c := by
  cases s with
  | wantType outer => exact absurd rfl (hwant outer)
  | afterName name outer =>
    rw [step_afterName] at hs
    split at hs
    · next ht => exact ⟨_, by decide, ht⟩
    · exact mark_of_afterTypeStep hs
  | afterType e outer => exact mark_of_afterTypeStep hs
  | inBrackets e rank outer =>
    rcases step_inBrackets hs with ⟨rfl, -⟩ | ⟨rfl, -⟩
    · exact ⟨_, by decide, rfl⟩
    · exact ⟨_, by decide, rfl⟩

/-- Only marks stand between the types of an expression. -/
theorem mem_marks_of_step {s s' : State} {c : Char} (hs : s.step (.symbol c) = some s') :
    c ∈ Token.marks := by
  cases s with
  | wantType outer => cases hs
  | _ =>
    obtain ⟨_, hc, h⟩ := mark_of_step hs (fun _ h => by cases h)
    cases h
    exact hc

/-- A lone exclamation mark stands nowhere. -/
theorem step_bang (s : State) : s.step .bang = none := by
  cases hs : s.step .bang with
  | none => rfl
  | some s' =>
    cases s with
    | wantType outer => cases hs
    | _ =>
      obtain ⟨_, _, h⟩ := mark_of_step hs (fun _ h => by cases h)
      cases h

/-- A token that is no mark is a type, so no type has to come behind it. -/
theorem not_wantType_of_step {s s' : State} {t : Token} (hs : s.step t = some s')
    (ht : ∀ c, t ≠ .symbol c) (outer : List Frame) : s' ≠ .wantType outer := by
  cases s with
  | wantType outer' =>
    rintro rfl
    cases t <;> cases hs
  | _ =>
    obtain ⟨c, _, h⟩ := mark_of_step hs (fun _ h => by cases h)
    exact absurd h (ht c)

end Expr.State

open Lexeme

namespace Spells

variable {ts : List Token} {cs : List Char}

/-- What begins with a mark begins with no character of a name, whatever blanks stand before it. -/
theorem separate (h : Spells ts cs)
    (hts : ∀ t us, ts = t :: us → ∃ c ∈ Token.marks, t = .symbol c) :
    Separate isNameChar cs := by
  intro d rest hd
  -- a blank in front, or else what is in front without blanks
  cases h with
  | nil hblanks =>
    exact isNameChar_of_isBlank (hblanks d (hd ▸ List.mem_cons_self))
  | @cons blanks w cs t ts hblanks ht hspells =>
    cases blanks with
    | cons b bs =>
      obtain rfl : b = d := (List.cons.inj hd).1
      exact isNameChar_of_isBlank (hblanks b List.mem_cons_self)
    | nil =>
      obtain ⟨c, hc, rfl⟩ := hts t ts rfl
      cases ht
      obtain rfl : c = d := (List.cons.inj hd).1
      exact (Token.of_mem_marks c hc).2.1

/-- **The scanner finds the tokens of an expression**, however they are spelled. -/
theorem scan (h : Spells ts cs) (offset : Nat) {s s' : Expr.State} (hs : s.steps ts = some s') :
    (Lexeme.scan offset cs).map Lexeme.token = ts := by
  induction h generalizing offset s with
  | @nil blanks hblanks =>
    have hscan := scan_blanks offset hblanks []
    rw [List.append_nil] at hscan
    rw [hscan, Lexeme.scan]
    rfl
  | @cons blanks w cs t ts hblanks ht hspells ih =>
    obtain ⟨s₁, hstep, hsteps⟩ := Option.bind_eq_some_iff.mp hs
    -- behind a name or a parameter a mark follows, so the run of its characters ends there
    have hseparate (hsymbol : ∀ c, t ≠ .symbol c) : Separate isNameChar cs := by
      refine hspells.separate fun u us hu => ?_
      obtain ⟨s₂, hstep', -⟩ := Option.bind_eq_some_iff.mp (hu ▸ hsteps)
      exact Expr.State.mark_of_step hstep' (Expr.State.not_wantType_of_step hstep hsymbol)
    have htakes : Takes t w cs := by
      cases ht with
      | name hne hcs => exact .name hne hcs (hseparate fun c h => by cases h)
      | param hne hdigits => exact .param hne hdigits (hseparate fun c h => by cases h).digits
      | @symbol c hc =>
        obtain ⟨hblank, hname, hbang⟩ := Token.of_mem_marks c hc
        exact .symbol hblank hname hbang
    rw [List.append_assoc, scan_blanks offset hblanks, htakes.scan, List.map_cons, ih _ hsteps]

end Spells

/-- Conversely, what the scanner finds is spelled by the text, if it all can stand there. -/
theorem spells_of_scan (offset : Nat) (cs : List Char) {s s' : Expr.State}
    (hs : s.steps ((Lexeme.scan offset cs).map Lexeme.token) = some s') :
    Spells ((Lexeme.scan offset cs).map Lexeme.token) cs := by
  induction cs using scan_induction generalizing offset s with
  | nil =>
    rw [Lexeme.scan]
    exact .empty
  | blank c cs hblank ih =>
    rw [scan_blank offset hblank] at hs ⊢
    exact (ih _ hs).blanks fun d hd => List.mem_singleton.mp hd ▸ hblank
  | token t w rest htakes ih =>
    rw [htakes.scan, List.map_cons] at hs ⊢
    obtain ⟨s₁, hstep, hsteps⟩ := Option.bind_eq_some_iff.mp hs
    have hspelled : t.Spelled w := by
      cases htakes with
      | name hne hrun _ => exact .name hne hrun
      | param hne hdigits _ => exact .param hne hdigits
      | symbol _ _ _ => exact .symbol (Expr.State.mem_marks_of_step hstep)
      | bang _ =>
        rw [Expr.State.step_bang] at hstep
        cases hstep
    exact (Spells.token hspelled).append (ih _ hsteps)

/-! ## Cutting a text in front of a token

If the scanner finds some lexeme, then the text in front of it has been scanned without looking at
it, except for its first character. Whatever comes behind that character, the lexemes before stay
the same. -/

/-- A text can be cut in front of a token. The tokens of the first part stay the same if nothing or
the same character comes behind it. -/
theorem exists_of_scan (offset : Nat) (cs : List Char) {ls : List Lexeme} {l : Lexeme}
    {ms : List Lexeme} (h : Lexeme.scan offset cs = ls ++ l :: ms) :
    ∃ p w rest, cs = p ++ (w ++ rest) ∧ l = ⟨l.token, offset + bytes p, bytes w⟩ ∧
      Takes l.token w rest ∧
      ∀ c q q', w ++ rest = c :: q → (∀ d r, q' = d :: r → d = c) →
        Lexeme.scan offset (p ++ q') = ls ++ Lexeme.scan (offset + bytes p) q' := by
  -- The lexeme is the first one that is found, or it is found behind it. The offset grows along
  -- with what has been passed over.
  induction cs using scan_induction generalizing offset ls with
  | nil =>
    rw [Lexeme.scan] at h
    cases ls <;> cases h
  | blank b cs hblank ih =>
    rw [scan_blank offset hblank] at h
    obtain ⟨p, w, rest, rfl, hl, htakes, hcut⟩ := ih _ h
    have hoffset : offset + bytes (b :: p) = offset + 1 + bytes p := by
      rw [Nat.add_assoc, ← utf8Size_of_isBlank hblank]
      rfl
    refine ⟨b :: p, w, rest, rfl, hoffset ▸ hl, htakes, fun c q q' hq hq' => ?_⟩
    rw [List.cons_append, scan_blank offset hblank, hcut c q q' hq hq', hoffset]
  | token t w rest htakes ih =>
    rw [htakes.scan] at h
    cases ls with
    | nil =>
      obtain ⟨rfl, -⟩ := List.cons.inj h
      exact ⟨[], w, rest, rfl, rfl, htakes, fun _ _ _ _ _ => rfl⟩
    | cons l' ls =>
      obtain ⟨rfl, htail⟩ := List.cons.inj h
      obtain ⟨p, v, rest, rfl, hl, htakes', hcut⟩ := ih _ htail
      have hoffset : offset + bytes (w ++ p) = offset + bytes w + bytes p := by
        rw [bytes_append, Nat.add_assoc]
      refine ⟨w ++ p, v, rest, (List.append_assoc ..).symm, hoffset ▸ hl, htakes',
        fun c q q' hq hq' => ?_⟩
      rw [hq] at htakes
      rw [List.append_assoc, (htakes.cut hq').scan, hcut c q q' hq hq', hoffset]
      rfl

end TypeResolution
