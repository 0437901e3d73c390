/-!
# Failures

What can stop an analysis of trees that have been read. A reference that cannot be resolved is no
failure: it is absent.
-/

namespace SurfaceCoverage

inductive Failure where
  /-- An escape names a number that no machine integer of 32 bits holds. -/
  | overflow
  /-- References lead back to a declaration that is being expanded. -/
  | endless
  /-- A module specifier denotes a path that cannot be given an extension. -/
  | invalidPath
  /-- A module specifier holds a surrogate, which no path has. -/
  | unencodable
  /-- A file name is longer than a file system allows. -/
  | nameTooLong
deriving DecidableEq

end SurfaceCoverage
