import Furthest.Bytes

/-!
# Faults

A fault ends a whole invocation, or the building of a parser: no combinator turns it into a failure
or a success. `Fault.message` is the wording of the faults that have one.
-/

namespace Furthest

/-- The repetitions whose counts have to lie between a least and a greatest. -/
inductive Repetition where
  | times
  | sepBy
  | manyUntil
deriving DecidableEq, Repr

/-- What was handed a function that may decline its argument. -/
inductive Caller where
  | map
  | bind
  | combine
deriving DecidableEq, Repr

/-- Why an invocation, or the building of a parser, was given up. -/
inductive Fault where
  /-- The least count of a repetition exceeds its greatest. -/
  | reversedBounds (repetition : Repetition)
  /-- A half-open range of counts holds no count. -/
  | emptyRange
  /-- A failure was to be made of a record without an index. -/
  | failureWithoutIndex
  /-- The index of a record that has none was asked for. -/
  | missingIndex
  /-- Text was compared beyond the end of the input. -/
  | beyondEnd
  /-- A declaration was used after its end. -/
  | declarationGone
  /-- A declaration was used before it was bound. -/
  | declarationUnbound
  /-- A function declined its argument. -/
  | refused (caller : Caller)
  /-- A function was given a value of a kind that it does not take. -/
  | unsuited
  /-- A name that stands for nothing. -/
  | unknownName
  /-- Deferred parsers were nested beyond every limit. -/
  | exhausted
deriving DecidableEq, Repr

namespace Repetition

/-- The name under which a repetition reports its bounds. -/
def name : Repetition → Bytes
  | .times => ascii "times"
  | .sepBy => ascii "sep_by"
  | .manyUntil => ascii "until"

end Repetition

namespace Caller

/-- The name under which a caller reports a refusal. -/
def name : Caller → Bytes
  | .map => ascii "map"
  | .bind => ascii "bind"
  | .combine => ascii "combine"

end Caller

namespace Fault

/-- The wording of a fault. -/
def message : Fault → Bytes
  | .reversedBounds repetition => repetition.name ++ ascii ": min exceeds max"
  | .emptyRange => ascii "empty repetition range"
  | .failureWithoutIndex => ascii "failure without a failing index"
  | .missingIndex => ascii "no failing index"
  | .beyondEnd => ascii "beyond the end of the input"
  | .declarationGone => ascii "forward declaration no longer exists"
  | .declarationUnbound => ascii "forward declaration used before become()"
  | .refused caller => caller.name ++ ascii " refused"
  | .unsuited => ascii "value of an unsuited kind"
  | .unknownName => ascii "unknown name"
  | .exhausted => ascii "nesting limit reached"

end Fault

end Furthest
