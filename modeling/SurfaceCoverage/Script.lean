import SurfaceCoverage.Script.Statements
/-!
# Scripts

`Script.parse` reads a whole script. What follows the last complete statement, if anything does,
becomes one error node, and the script counts as faulty.

Each rule asks other rules for parts of the text that is left, and between two characters taken
only a few rules ask in a row, so a multiple of the text's length bounds how deep they nest.
-/

namespace SurfaceCoverage.Script

open Reader

/-- The rule for each goal. -/
def rule (r : Rules) : Goal → Forest
  | .statement => statement r
  | .block => block r
  | .value place => value r place
  | .operand place level => operand r place level
  | .unary place => unary r place
  | .type ending => type r ending
  | .typeOperand ending => typeOperand r ending
  | .parameters => parameters r
  | .pattern target => pattern r target
  | .element => element r
  | .classBody => classBody r

/-- Reads goals with rules nested to a depth. -/
def nested : Nat → Rules
  | 0, _ => refuse
  | depth + 1, goal => fun d c => rule (nested depth) goal d c

/-- The line that names an interpreter. -/
def hashBang : Forest :=
  leaf .hashBangLine fun cs => if begins "#!" cs then spanLength (· != '\n') cs else 0

/-- The statements of a script and the space behind them. -/
def program (depth : Nat) : Forest :=
  optional hashBang ++ many (nested depth .statement) ++ wideGaps

/-- The tree of a script, and whether some of it could not be read. -/
def parse (dialect : Dialect) (source : List Char) : Node × Bool :=
  let n := source.length
  let (found, rest) := match program (8 * n + 8) dialect ⟨source, n⟩ with
    | some (ns, c) => (ns, c.rest)
    | none => ([], source)
  if rest.isEmpty then (.branch .none .program found, false)
  else (.branch .none .program (found ++ [.leaf .none .error (String.ofList rest)]), true)

end SurfaceCoverage.Script
