/-!
# Breakdowns

An operation whose preconditions do not hold cannot go on: it stops with a text when the case was
foreseen, and without one when it was not.
-/

namespace SsaIr

inductive Breakdown where
  | abort (text : String)
  | crash
deriving DecidableEq, Repr, Inhabited

end SsaIr
