import TypeResolution.Pattern.Producer

/-!
# Windows: which patterns a resolution may use

A window is a range of positions in the pattern list, together with the range that nested windows
are cut from. A directive narrows the window of the pattern being built; a global directive narrows
the range for everything nested further inside as well.
-/

namespace TypeResolution

/-- A range of pattern positions, and the range that nested windows are cut from. Each range goes
from its start up to, but not including, its stop. -/
structure Window where
  /-- the first position -/
  start : Nat
  /-- the position behind the last one -/
  stop : Nat
  /-- the first position for nested windows -/
  globalStart : Nat
  /-- the position behind the last one for nested windows -/
  globalStop : Nat
  deriving DecidableEq

namespace Window

/-- The window of a whole list of patterns. -/
def whole (length : Nat) : Window := ⟨0, length, 0, length⟩

/-- The window of a directive on a producer of the pattern at position `index`. It is cut from the
global range, not from the window that the pattern itself was reached through. -/
def directed (w : Window) (index : Nat) (d : Directive) : Window :=
  let start :=
    match d.direction with
    | .following => max w.globalStart (index + 1)
    | _ => w.globalStart
  let stop :=
    match d.direction with
    | .preceding => min w.globalStop index
    | _ => w.globalStop
  if d.isGlobal then ⟨start, stop, start, stop⟩
  else { w with start := start, stop := stop }

/-- The elements of a list that lie in the window, with their positions. -/
def select {α : Type} (w : Window) (as : List α) : List (α × Nat) :=
  (as.zipIdx.take w.stop).drop w.start

end Window

end TypeResolution
