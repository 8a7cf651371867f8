/-!
# Variance: which relatives of a type are accepted

A constraint, and a declared generic parameter, accepts exactly one type, its descendants, its
ancestors, or both. `nest` says what is accepted at a place nested inside another.
-/

namespace TypeResolution

/-- Which relatives of a type are accepted in its place. -/
inductive Variance where
  /-- the type itself only -/
  | invariant
  /-- the type and its descendants -/
  | covariant
  /-- the type and its ancestors -/
  | contravariant
  /-- descendants and ancestors alike -/
  | ambivariant
  deriving DecidableEq, Inhabited

namespace Variance

/-- The variance in force at a place of variance `inner` inside a place whose variance in force is
`outer`. Not symmetric: a contravariant place turns covariance around, while a covariant place
leaves contravariance as it is. -/
def nest : (outer inner : Variance) → Variance
  | .invariant, _ => .invariant
  | .covariant, .ambivariant => .covariant
  | .covariant, inner => inner
  | .contravariant, .invariant => .invariant
  | .contravariant, .covariant => .contravariant
  | .contravariant, .contravariant => .covariant
  | .contravariant, .ambivariant => .contravariant
  | .ambivariant, inner => inner

/-- The mark that a constraint of this variance is written with. -/
def mark : Variance → String
  | .invariant => ""
  | .covariant => "+"
  | .contravariant => "-"
  | .ambivariant => "~"

end Variance

end TypeResolution
