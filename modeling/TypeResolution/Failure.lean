/-!
# Failures of producers

A producer that cannot build a value says so with a category and a message. The resolver goes on
after a failure of an expected category and gives up on any other.
-/

namespace TypeResolution

/-- The sort of failure that a producer reports. -/
inductive Failure.Category where
  /-- a failure at the level of the runtime, such as a bad argument -/
  | system
  /-- a category with a name of its own -/
  | custom (name : String)
  deriving DecidableEq

namespace Failure.Category

/-- The category that a name in a configuration means. -/
def ofName (name : String) : Failure.Category :=
  if name = "system" then .system else .custom name

/-- The name of a category in messages. -/
def name : Failure.Category → String
  | .system => "system"
  | .custom name => name

end Failure.Category

/-- Why a producer built nothing. -/
structure Failure where
  /-- the sort of failure -/
  category : Failure.Category
  /-- what went wrong -/
  message : String
  deriving DecidableEq

/-- A failure with its category in front. -/
def Failure.describe (f : Failure) : String := f.category.name ++ " failure: " ++ f.message

end TypeResolution
