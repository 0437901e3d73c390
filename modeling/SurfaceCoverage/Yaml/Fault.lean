import SurfaceCoverage.Text
/-!
# Faults of documents

A document that breaks the rules of the format is malformed. A well-formed one may still hold a
scalar that has no value: a tag can ask for a number, a truth value or a moment that the text of
the scalar does not write.
-/

namespace SurfaceCoverage.Yaml

inductive Fault where
  /-- The text is no document, or a collection does not suit its tag. -/
  | malformed
  /-- A number, a date or an escape is out of range or does not read as one. -/
  | outOfRange
  /-- An escape names a number that no machine integer of 32 bits holds. -/
  | overflow
  /-- A number without a character. -/
  | missingNumber
  /-- A word that is no truth value. -/
  | unknownWord (word : Text)
  /-- A text that is no moment. -/
  | noMoment
deriving DecidableEq

end SurfaceCoverage.Yaml
