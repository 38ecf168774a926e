import Typesweep.Path.Basic

/-!
# Diagnostics

One problem that the checker reports.
-/

namespace Typesweep

/-- One problem that the checker reports. -/
structure Diagnostic where
  /-- The file that the problem is in. -/
  file : Path
  /-- Line, counted from one. -/
  line : UInt32
  /-- Column, counted from one. -/
  column : UInt32
  code : Text
  message : Text
  deriving DecidableEq, Repr

end Typesweep
