/-! Settings of a minimization. By default there is no limit and no dump of columns. -/

set_option autoImplicit false

namespace TwoLevel

structure Settings where
  /-- Log every column of the search for prime implicants. -/
  traceColumns : Bool := false
  /-- The largest number of products that a step of the cover search may yield. -/
  coverLimit : Option Nat := none
  deriving DecidableEq, Repr

end TwoLevel
