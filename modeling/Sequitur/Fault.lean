/-!
What can be wrong with a source text. Checking never stops at a fault: every fault is recorded where
it was found, and its wording is fixed here.
-/

namespace Sequitur

inductive Fault where
  | unexpectedToken
  | typeMissing
  | nameMissing
  | leftParenMissing
  | rightParenMissing
  | paramTypeMissing
  | paramNameMissing
  | leftBraceMissing
  | rightBraceMissing
  | bodyKeywordMissing
  | emptyTarget
  | emptyAssumption
  | emptyDistinct
  | distinctRepeated
  | distinctSingle
  | distinctNotParam
  | targetMissing
  | equalsMissing
  | typeUndefined
  | notType
  | nameTaken
  | paramTaken
  | distinctIsKeyword
  | termUndefined
  | tooManyArgs
  | tooFewArgs
  | argTypeMismatch
  | ruleUndefined
  | distinctViolated
  | stepUseless
  | notProved
deriving DecidableEq, Repr, Inhabited

namespace Fault

/-- Faults of form, found while reading blocks; the others are found while elaborating them. -/
def isSyntactic : Fault → Bool
  | .unexpectedToken | .typeMissing | .nameMissing | .leftParenMissing | .rightParenMissing
  | .paramTypeMissing | .paramNameMissing | .leftBraceMissing | .rightBraceMissing
  | .bodyKeywordMissing | .emptyTarget | .emptyAssumption | .emptyDistinct | .distinctRepeated
  | .distinctSingle | .distinctNotParam | .targetMissing | .equalsMissing => true
  | _ => false

def message : Fault → String
  | .unexpectedToken => "unexpected token"
  | .typeMissing => "type missing"
  | .nameMissing => "name missing"
  | .leftParenMissing => "'(' missing"
  | .rightParenMissing => "')' missing"
  | .paramTypeMissing => "parameter type missing"
  | .paramNameMissing => "parameter name missing"
  | .leftBraceMissing => "'\x7b' missing"
  | .rightBraceMissing => "'\x7d' missing"
  | .bodyKeywordMissing => "expected '|-', '-|' or 'diff'"
  | .emptyTarget => "empty target statement"
  | .emptyAssumption => "empty assumption statement"
  | .emptyDistinct => "empty diff statement"
  | .distinctRepeated => "diff group contains the same name twice"
  | .distinctSingle => "diff group needs at least two names"
  | .distinctNotParam => "diff accepts only parameter names"
  | .targetMissing => "target missing"
  | .equalsMissing => "'=' missing"
  | .typeUndefined => "undefined type"
  | .notType => "not a type"
  | .nameTaken => "name already defined"
  | .paramTaken => "parameter name already used"
  | .distinctIsKeyword => "'diff' is a keyword"
  | .termUndefined => "undefined term"
  | .tooManyArgs => "too many arguments"
  | .tooFewArgs => "too few arguments"
  | .argTypeMismatch => "argument of wrong type"
  | .ruleUndefined => "undefined axiom or theorem"
  | .distinctViolated => "diff condition of the applied rule violated"
  | .stepUseless => "proof step proves no current target"
  | .notProved => "theorem not proved"

end Fault

end Sequitur
