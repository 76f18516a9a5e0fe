import Disguise.Opcode

/-!
Broken promises. Operations on a program graph have preconditions, such as "the insertion point is
in the block"; a caller that breaks one gets a `Violation` and no result. `message` is `none` for
the slips that have no wording of their own, such as an operand index out of range.
-/
namespace Disguise

inductive Violation where
  /-- An index out of range or a value that is absent. -/
  | absent
  | badWidth (bits : Int)
  /-- A use is withdrawn that was never recorded; `result` tells an op's result from a param. -/
  | missingUse (result : Bool) (user : Opcode)
  | opNotInBlock
  | blockNotInFunc
  | foreignInsertionPoint
  | alreadyPlaced (code : Opcode) (block : Bytes)
  | strayQueue (count : Int) (block : Bytes)
  | undefinedValue (what : Bytes)
  | foreignOperand
  | foreignReference
  | badProbability
  | badChoice
  | badHistoryLimits (lines size : Int)
  | externalMetric (name : Bytes)
  | notDistribution (name : Bytes)
  | unknownMetricOption (n : Int)
  deriving DecidableEq, Repr

namespace Violation
open Bytes

def message : Violation → Option Bytes
  | absent => none
  | badWidth bits => some (text "invalid bitSize value: " ++ decimal bits)
  | missingUse result user =>
    some (text "removing non-existent use of *prog." ++ text (if result then "Op" else "Param") ++
      text " by " ++ user.name)
  | opNotInBlock => some (text "op is not present in its block")
  | blockNotInFunc => some (text "block is not present in its function")
  | foreignInsertionPoint => some (text "insertion point is not in the block")
  | alreadyPlaced code block =>
    some (text "op " ++ code.name ++ text " is already in block " ++ block)
  | strayQueue count block =>
    some (decimal count ++ text " queued ops have an insertion point outside of block " ++ block)
  | undefinedValue what => some (text "use of undefined " ++ what)
  | foreignOperand => some (text "operand refers to a value outside of the function")
  | foreignReference => some (text "reference to a value outside of the function")
  | badProbability => some (text "bad probability")
  | badChoice => some (text "invalid argument to Intn")
  | badHistoryLimits lines size =>
    some (text "bad history limits: " ++ decimal lines ++ text " lines, " ++ decimal size ++
      text " bytes")
  | externalMetric name => some (text "stat " ++ name ++ text " is in external mode")
  | notDistribution name => some (text "stat " ++ name ++ text " is not a distribution")
  | unknownMetricOption n => some (text "unknown stats option " ++ decimal n)

end Violation
end Disguise
