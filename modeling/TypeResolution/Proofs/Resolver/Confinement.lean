import TypeResolution.Proofs.Resolver.Attempts

/-!
# Nested resolutions stay in their windows

A resolution tries the patterns of a window. Each of them may resolve again, in windows that the
directives of its producers derive from the window it was reached through, and so on: what is
attempted in the end is at the end of a chain of nested resolutions (`NestedChain`). The windows
along a chain may widen again, because a directive cuts its window from the global range. That range
only shrinks, which is what keeps everything behind a global directive inside the window of that
directive (`NestedChain.confined`).

Chains are defined without mention of a run. That they are all there is to one is a statement of its
own (`attemptsOnly_onChain`): a resolution makes no attempt but at the end of a chain, inside of the
attempts along that chain. For this the attempts at the end of chains have to be an invariant of
nesting, and they are because a chain goes on with whatever its last pattern asks for
(`NestedChain.extend`).
-/

namespace TypeResolution

namespace Resolver

variable {V : Type} (r : Resolver V)

/-! ## Chains of nested resolutions -/

/-- `k` resolutions, each nested in the one before: from the pattern at `place j`, which was reached
through the window recorded there, `directive j` leads to the one at `place (j + 1)`. The first
pattern is one that a whole resolution tries, or the fallback. -/
structure NestedChain (k : Nat) (place : Nat → Place) (directive : Nat → Directive) : Prop where
  /-- the first window is that of all patterns -/
  window_zero : (place 0).window = .whole r.patterns.length
  /-- the first pattern is tried in it, or it is the fallback -/
  start : r.Tries (.whole r.patterns.length) (place 0).index ∨
    r.fallback.isSome = true ∧ (place 0).index = r.patterns.length
  /-- each directive is one of the pattern's -/
  directive_mem : ∀ j < k, ∃ p, r.patternAt? (place j).index = some p ∧ directive j ∈ p.directives
  /-- the next window is derived from it -/
  window_succ : ∀ j < k,
    (place (j + 1)).window = (place j).window.directed (place j).index (directive j)
  /-- the next pattern is tried in that window -/
  tried : ∀ j < k, r.Tries (place (j + 1)).window (place (j + 1)).index

/-- Every pattern of a chain is one that the directives before it allow. -/
structure Confined (k : Nat) (place : Nat → Place) (directive : Nat → Directive) : Prop where
  /-- only patterns of the list are tried; the fallback may only come first -/
  index_lt : ∀ j ≤ k, (place j).index < r.patterns.length ∨
    j = 0 ∧ r.fallback.isSome = true ∧ (place j).index = r.patterns.length
  /-- what follows stands behind -/
  following : ∀ j < k, (directive j).direction = .following →
    (place j).index < (place (j + 1)).index
  /-- what precedes stands before -/
  preceding : ∀ j < k, (directive j).direction = .preceding →
    (place (j + 1)).index < (place j).index
  /-- nothing that is nested in the window of a global directive leaves it -/
  isGlobal : ∀ j < k, (directive j).isGlobal = true → ∀ m, j < m → m ≤ k →
    (place (j + 1)).window.start ≤ (place m).index ∧ (place m).index < (place (j + 1)).window.stop
  /-- without a direction the window is that of the last global directive before -/
  any_of_isGlobal : ∀ l j, l < j → j < k → (directive j).direction = .any →
    (directive l).isGlobal = true → (∀ m, l < m → m < j → (directive m).isGlobal = false) →
      (place (j + 1)).window.start = (place (l + 1)).window.start ∧
        (place (j + 1)).window.stop = (place (l + 1)).window.stop
  /-- or of the whole list, if there is none -/
  any_of_not_isGlobal : ∀ j < k, (directive j).direction = .any →
    (∀ m < j, (directive m).isGlobal = false) →
      (place (j + 1)).window.start = 0 ∧ (place (j + 1)).window.stop = r.patterns.length

variable {r}

namespace NestedChain

variable {k : Nat} {place : Nat → Place} {directive : Nat → Directive}

/-- Along a chain the global range only shrinks. -/
theorem globalRange_mono (h : r.NestedChain k place directive) {l m : Nat} (hlm : l ≤ m)
    (hm : m ≤ k) :
    (place l).window.globalStart ≤ (place m).window.globalStart ∧
      (place m).window.globalStop ≤ (place l).window.globalStop := by
  induction hlm with
  | refl => exact ⟨Nat.le_refl _, Nat.le_refl _⟩
  | @step m _ ih =>
    obtain ⟨hstart, hstop⟩ := ih (Nat.le_of_lt hm)
    obtain ⟨hstart', hstop'⟩ :=
      (place m).window.directed_globalRange (place m).index (directive m)
    rw [h.window_succ m hm]
    exact ⟨Nat.le_trans hstart hstart', Nat.le_trans hstop' hstop⟩

/-- As long as no directive is global, the global range stays. -/
theorem globalRange_eq (h : r.NestedChain k place directive) {l m : Nat} (hlm : l ≤ m) (hm : m ≤ k)
    (hlocal : ∀ j, l ≤ j → j < m → (directive j).isGlobal = false) :
    (place m).window.globalStart = (place l).window.globalStart ∧
      (place m).window.globalStop = (place l).window.globalStop := by
  induction hlm with
  | refl => exact ⟨rfl, rfl⟩
  | @step m hlm ih =>
    obtain ⟨hstart, hstop⟩ :=
      ih (Nat.le_of_lt hm) fun j hl hj => hlocal j hl (Nat.lt_succ_of_lt hj)
    obtain ⟨hstart', hstop'⟩ := Window.directed_of_not_isGlobal (w := (place m).window)
      (i := (place m).index) (hlocal m hlm (Nat.lt_succ_self m))
    rw [h.window_succ m hm, hstart', hstop']
    exact ⟨hstart, hstop⟩

/-- What is tried behind a place lies in the global range of its window. -/
theorem index_in_globalRange (h : r.NestedChain k place directive) {l m : Nat} (hlm : l < m)
    (hm : m ≤ k) :
    (place l).window.globalStart ≤ (place m).index ∧
      (place m).index < (place l).window.globalStop := by
  obtain ⟨m, rfl⟩ := Nat.exists_eq_add_one_of_ne_zero (Nat.ne_of_gt (Nat.zero_lt_of_lt hlm))
  obtain ⟨-, hstart, hstop⟩ := (h.tried m hm).bounds
  obtain ⟨hstart', hstop'⟩ := (place m).window.directed_in_globalRange (place m).index (directive m)
  obtain ⟨hmono, hmono'⟩ := h.globalRange_mono (Nat.le_of_lt_succ hlm) (Nat.le_of_lt hm)
  rw [h.window_succ m hm] at hstart hstop
  omega

/-- The window of a directive without a direction is the global range of the window before. -/
theorem range_of_any (h : r.NestedChain k place directive) {j : Nat} (hj : j < k)
    (hany : (directive j).direction = .any) :
    (place (j + 1)).window.start = (place j).window.globalStart ∧
      (place (j + 1)).window.stop = (place j).window.globalStop := by
  rw [h.window_succ j hj]
  exact Window.directed_of_any hany

/-- **Nested resolutions are confined to the windows of their directives.** -/
theorem confined (h : r.NestedChain k place directive) : r.Confined k place directive where
  index_lt j hj := by
    cases j with
    | zero =>
      rcases h.start with htries | hfallback
      · exact .inl htries.bounds.1
      · exact .inr ⟨rfl, hfallback⟩
    | succ j => exact .inl (h.tried j hj).bounds.1
  following j hj hfollowing := by
    have hlt := Window.lt_directed_start (w := (place j).window) (i := (place j).index) hfollowing
    obtain ⟨-, hstart, -⟩ := (h.tried j hj).bounds
    rw [h.window_succ j hj] at hstart
    exact Nat.lt_of_lt_of_le hlt hstart
  preceding j hj hpreceding := by
    have hle := Window.directed_stop_le (w := (place j).window) (i := (place j).index) hpreceding
    obtain ⟨-, -, hstop⟩ := (h.tried j hj).bounds
    rw [h.window_succ j hj] at hstop
    exact Nat.lt_of_lt_of_le hstop hle
  isGlobal j hj hglobal m hjm hm := by
    obtain ⟨hstart, hstop⟩ :=
      Window.directed_of_isGlobal (w := (place j).window) (i := (place j).index) hglobal
    rw [← h.window_succ j hj] at hstart hstop
    -- the first nested pattern is tried in the window itself, the others in its global range
    rcases Nat.eq_or_lt_of_le (Nat.succ_le_of_lt hjm) with rfl | hlt
    · exact (h.tried j hj).bounds.2
    · rw [← hstart, ← hstop]
      exact h.index_in_globalRange hlt hm
  any_of_isGlobal l j hlj hj hany hglobal hlocal := by
    obtain ⟨hstart, hstop⟩ :=
      Window.directed_of_isGlobal (w := (place l).window) (i := (place l).index) hglobal
    rw [← h.window_succ l (Nat.lt_trans hlj hj)] at hstart hstop
    obtain ⟨hstart', hstop'⟩ := h.globalRange_eq hlj (Nat.le_of_lt hj) hlocal
    obtain ⟨hany, hany'⟩ := h.range_of_any hj hany
    exact ⟨hany.trans (hstart'.trans hstart), hany'.trans (hstop'.trans hstop)⟩
  any_of_not_isGlobal j hj hany hlocal := by
    obtain ⟨hstart, hstop⟩ :=
      h.globalRange_eq (Nat.zero_le j) (Nat.le_of_lt hj) fun m _ hm => hlocal m hm
    obtain ⟨hany, hany'⟩ := h.range_of_any hj hany
    rw [h.window_zero] at hstart hstop
    exact ⟨hany.trans hstart, hany'.trans hstop⟩

/-- A chain goes on with whatever is tried in a window that the last pattern's directives derive.
The longer chain has the places of the shorter one before its last. -/
theorem extend (h : r.NestedChain k place directive) {p : Pattern V} {d : Directive} {w : Window}
    {index : Nat} (hp : r.patternAt? (place k).index = some p) (hd : d ∈ p.directives)
    (hw : w = (place k).window.directed (place k).index d) (hindex : r.Tries w index) :
    ∃ place' directive', r.NestedChain (k + 1) place' directive' ∧
      (∀ j ≤ k, place' j = place j) ∧ place' (k + 1) = ⟨index, w⟩ := by
  -- up to `k` the chain stays as it is, and behind it stand the new place and its directive
  have hplace : ∀ j ≤ k, (if j ≤ k then place j else ⟨index, w⟩) = place j := fun j hj => if_pos hj
  refine ⟨fun j => if j ≤ k then place j else ⟨index, w⟩,
    fun j => if j < k then directive j else d, ?_, hplace, if_neg (Nat.not_succ_le_self k)⟩
  have hlast : (if k + 1 ≤ k then place (k + 1) else ⟨index, w⟩) = ⟨index, w⟩ :=
    if_neg (Nat.not_succ_le_self k)
  constructor
  · exact h.window_zero
  · exact h.start
  · intro j hj
    rw [hplace j (Nat.le_of_lt_succ hj)]
    rcases Nat.lt_succ_iff_lt_or_eq.mp hj with hj | rfl
    · rw [if_pos hj]
      exact h.directive_mem j hj
    · rw [if_neg (Nat.lt_irrefl j)]
      exact ⟨p, hp, hd⟩
  · intro j hj
    rw [hplace j (Nat.le_of_lt_succ hj)]
    rcases Nat.lt_succ_iff_lt_or_eq.mp hj with hj | rfl
    · rw [hplace (j + 1) hj, if_pos hj]
      exact h.window_succ j hj
    · rw [hlast, if_neg (Nat.lt_irrefl j)]
      exact hw
  · intro j hj
    rcases Nat.lt_succ_iff_lt_or_eq.mp hj with hj | rfl
    · rw [hplace (j + 1) hj]
      exact h.tried j hj
    · rw [hlast]
      exact hindex

end NestedChain

/-! ## Runs go along chains -/

variable (r) in
/-- The attempt is at the end of a chain, inside of the attempts along it. -/
def OnChain (a : Attempt) : Prop :=
  ∃ k place directive, r.NestedChain k place directive ∧
    a.outer = (List.range k).map place ∧ a.place = place k

/-- A chain of no nested resolution starts at the patterns of the whole list, and at the fallback.
-/
theorem onChain_start {index : Nat} (h : r.Tries (.whole r.patterns.length) index ∨
      r.fallback.isSome = true ∧ index = r.patterns.length) (fuel : Nat) (candidates : List Ty) :
    r.OnChain ⟨fuel, [], ⟨index, .whole r.patterns.length⟩, candidates⟩ := by
  have hnone : ∀ {P : Nat → Prop}, ∀ j < 0, P j := fun j hj => absurd hj (Nat.not_lt_zero j)
  refine ⟨0, fun _ => ⟨index, .whole r.patterns.length⟩, fun _ => { types := [] }, ?_, rfl, rfl⟩
  exact ⟨rfl, h, hnone, hnone, hnone⟩

/-- What is attempted for a directive of the last pattern is at the end of a longer chain. -/
theorem OnChain.nested {a : Attempt} (h : r.OnChain a) {ts : List Ty} {w : Window}
    (hasks : r.Asks a ts w) (fuel : Nat) {index : Nat} (hindex : r.Tries w index) :
    r.OnChain ⟨fuel, a.outer ++ [a.place], ⟨index, w⟩, ts⟩ := by
  obtain ⟨k, place, directive, hchain, houter, hplace⟩ := h
  obtain ⟨hp, -, -, hd, -⟩ := hasks
  obtain ⟨p, hp, -, hproducers⟩ := exists_patternAt?_of_triedAt? hp
  rw [hplace] at hp hindex
  rw [Pattern.directives, ← hproducers] at hd
  obtain ⟨place', directive', hchain', hsame, hlast⟩ := hchain.extend hp hd rfl hindex
  refine ⟨k + 1, place', directive', hchain', ?_, ?_⟩
  · have hmap : (List.range k).map place' = (List.range k).map place :=
      List.map_congr_left fun j hj => hsame j (Nat.le_of_lt (List.mem_range.mp hj))
    rw [List.range_succ, List.map_append, hmap, List.map_singleton, hsame k (Nat.le_refl k), houter,
      hplace]
  · rw [hlast, hplace]

variable (r)

/-- The ends of chains are not left by nesting. -/
theorem invariant_onChain (candidates : List Ty) : r.Invariant candidates r.OnChain where
  start fuel _ hindex := onChain_start (.inl hindex) fuel candidates
  fallback hsome fuel := onChain_start (.inr ⟨hsome, rfl⟩) fuel []
  nested _ ha _ _ hasks fuel _ hindex := ha.nested hasks fuel hindex

/-- **A resolution goes along chains.** -/
theorem attemptsOnly_onChain (fuel : Nat) (candidates : List Ty) :
    r.AttemptsOnly r.OnChain fuel candidates :=
  (r.invariant_onChain candidates).attemptsOnly fuel

/-- **Nested resolutions are confined.** Every chain of nested resolutions stays in the windows of
its directives. And a run consists of such chains: under any fuel and for any candidates, what would
come of an attempt anywhere else, or inside of attempts that are not those along the chain, has no
say in it. -/
theorem nestedResolutions_confined :
    (∀ k place directive, r.NestedChain k place directive → r.Confined k place directive) ∧
      ∀ fuel candidates, r.AttemptsOnly r.OnChain fuel candidates := by
  constructor
  · intro k place directive h
    exact h.confined
  · intro fuel candidates
    exact r.attemptsOnly_onChain fuel candidates

end Resolver

/-- Counts one dimension more than the rest of the encoded rank has. -/
def countSuccessor (directive : Directive) : Pattern Nat where
  template := .definition rankSucc
  slots := [⟨[.definition rankSucc [.named "N"]], false⟩]
  producers := [.ofConstructor [.specialize directive false] false fun _ args =>
    .answer <| match args with
      | [.value n] => .ok (n + 1)
      | _ => .error ⟨.system, "no dimension to count"⟩]

/-- The directives of a descent: first to what follows, for good, and then to what precedes. -/
def descentDirective : Nat → Directive
  | 0 => { types := [.named "N"], direction := .following, isGlobal := true }
  | _ => { types := [.named "N"], direction := .preceding }

/-- Counts the dimensions of an encoded rank, from the outside to the inside. The first pattern
leaves the rest of the rank to those behind it, the last one to those before it. -/
def rankDescent : Resolver Nat where
  catalog := .empty
  patterns := [countSuccessor (descentDirective 0),
    { template := .definition rankZero
      slots := [⟨[.definition rankZero []], false⟩]
      producers := [.ofFactory [] false fun _ _ => .answer (.ok (.one 0))] },
    countSuccessor (descentDirective 1)]

/-- The places of a descent from the first pattern to the last, and from there to the one between
them. -/
def descentPlace : Nat → Place
  | 0 => ⟨0, .whole 3⟩
  | 1 => ⟨2, ⟨1, 3, 1, 3⟩⟩
  | _ => ⟨1, ⟨1, 2, 1, 3⟩⟩

/-- The descent is a chain of two nested resolutions. -/
theorem rankDescent_chain : rankDescent.NestedChain 2 descentPlace descentDirective where
  window_zero := rfl
  start := .inl ⟨_, .head _⟩
  directive_mem j hj := by
    obtain rfl | rfl : j = 0 ∨ j = 1 := by omega
    · exact ⟨countSuccessor (descentDirective 0), rfl, .head _⟩
    · exact ⟨countSuccessor (descentDirective 1), rfl, .head _⟩
  window_succ j hj := by
    obtain rfl | rfl : j = 0 ∨ j = 1 := by omega
    · rfl
    · rfl
  tried j hj := by
    obtain rfl | rfl : j = 0 ∨ j = 1 := by omega
    · exact ⟨countSuccessor (descentDirective 1), .tail _ (.head _)⟩
    · exact ⟨_, .head _⟩

/-- Does what `rankDescent` does, but fails where the first pattern is tried again behind itself. -/
def failBack : Handler Nat := fun a nested =>
  if (∃ place ∈ a.outer, place.index = 0) ∧ a.place.index = 0 then
    .failed (.producer (.nominal rankZero) ⟨.system, "back at the first pattern"⟩)
  else rankDescent.tryAt a nested

/-- What the last pattern leaves to those before it does not go back to the first, once that was
left for good. So it makes no difference to the count what the first pattern would do there. -/
theorem rankDescent_confined :
    rankDescent.NestedChain 2 descentPlace descentDirective ∧
      (1 ≤ (descentPlace 2).index ∧ (descentPlace 2).index < 3) ∧
      rankDescent.searchVia failBack 12 [rankEncoding 2] =
        rankDescent.search 12 [rankEncoding 2] ∧
      rankDescent.allValues 12 [rankEncoding 2] = some (.ok [2, 2]) := by
  obtain ⟨hconfined, hruns⟩ := rankDescent.nestedResolutions_confined
  have hinside := (hconfined 2 _ _ rankDescent_chain).isGlobal 0 (by decide) rfl 2 (by decide)
    (by decide)
  refine ⟨rankDescent_chain, hinside, hruns 12 [rankEncoding 2] failBack ?_, rfl⟩
  rintro a nested ⟨k, place, directive, hchain, houter, hplace⟩
  refine if_neg ?_
  rintro ⟨⟨_, hmem, hzero⟩, hback⟩
  rw [houter] at hmem
  obtain ⟨j, hj, rfl⟩ := List.mem_map.mp hmem
  have hj := List.mem_range.mp hj
  -- the only directive of the first pattern leaves it for good
  obtain ⟨p, hp, hd⟩ := hchain.directive_mem j hj
  rw [hzero] at hp
  obtain rfl := Option.some.inj hp
  have hdirective := List.mem_singleton.mp hd
  have hglobal : (directive j).isGlobal = true := by rw [hdirective]; rfl
  have hstays := (hconfined k place directive hchain).isGlobal j hj hglobal k hj (Nat.le_refl k)
  rw [hchain.window_succ j hj] at hstays
  have hlt := Window.lt_directed_start (w := (place j).window) (i := (place j).index)
    (d := directive j) (by rw [hdirective]; rfl)
  rw [hplace] at hback
  omega

end TypeResolution
