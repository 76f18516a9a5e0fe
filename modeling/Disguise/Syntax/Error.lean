import Disguise.Text.Numeral
import Disguise.Text.Quoted
import Disguise.Validity

/-!
Why a text is no program. A fault found within a line is reported with the line itself; the others
name the line or the function.
-/
namespace Disguise.Syntax
open Bytes

/-- What is wrong with a line at some place. -/
inductive LineFault where
  | endsEarly
  | wantByteAtEnd (want : UInt8)
  | wantByte (want got : UInt8)
  /-- No identifier stands where `left` bytes of the line are left. -/
  | noIdentifier (left : Nat)
  | badType (name : Bytes)
  | noString
  | openString
  | badString
  | noKeyword (word : Bytes)
  | digitParam (name : Bytes)
  | unknownAttribute (name : Bytes)
  | trailing
  | badConst (numeral : Bytes) (fault : Numeral.Fault)
  | wideConst (numeral : Bytes) (bits : Int)
  | noOperand
  deriving DecidableEq, Repr

/-- The code point with the number of a byte. -/
def byteText (b : UInt8) : Bytes := Utf8.encode b.toNat

def numeralFault : Numeral.Fault → Bytes
  | .malformed => text "invalid syntax"
  | .outOfRange => text "value out of range"

def LineFault.message [Unicode] (line : Bytes) : LineFault → Bytes
  | endsEarly => text "unexpected eof"
  | wantByteAtEnd want => text "want " ++ byteText want ++ text ", got EOF"
  | wantByte want got =>
    text "want '" ++ byteText want ++ text "', got '" ++ byteText got ++ text "'"
  | noIdentifier left =>
    text "failed to parse identifier at pos " ++ decimalNat (line.length - left)
  | badType name => text "bad type " ++ Quoted.quote name
  | noString => text "want quoted string"
  | openString => text "unterminated string"
  | badString => text "bad string: invalid syntax"
  | noKeyword word => text "want func or declare, got " ++ Quoted.quote word
  | digitParam name => text "parameter name " ++ Quoted.quote name ++ text " starts with a digit"
  | unknownAttribute name => text "unknown function attribute " ++ Quoted.quote name
  | trailing => text "tailing data"
  | badConst numeral fault =>
    text "wrong constant value '" ++ numeral ++ text "': strconv.ParseUint: parsing " ++
      Quoted.quote numeral ++ text ": " ++ numeralFault fault
  | wideConst numeral bits =>
    text "constant " ++ numeral ++ text " does not fit into i" ++ decimal bits
  | noOperand => text "failed to parse operand"

inductive SyntaxError where
  | inLine (number : Nat) (line : Bytes) (fault : LineFault)
  | trailing (number : Nat)
  | trailingLabel (number : Nat)
  | duplicateBlock (name : Bytes) (number : Nat)
  | unknownTerminator (name : Bytes) (number : Nat)
  | unknownOpcode (name : Bytes) (number : Nat)
  | redefined (name : Bytes) (number : Nat)
  | outsideBlock (number : Nat)
  | unknownValue (name : Bytes) (number : Nat)
  | unknownTarget (name : Bytes) (number : Nat)
  | noBlocks (func : Bytes)
  | unterminated (func : Bytes)
  | longLine
  | defect (d : Defect)
  deriving DecidableEq, Repr

def inParens (number : Nat) : Bytes := text " (line #" ++ decimalNat number ++ text ")"

def SyntaxError.message [Unicode] : SyntaxError → Bytes
  | inLine number line fault =>
    fault.message line ++ text "\nline #" ++ decimalNat number ++ text ": " ++ line
  | trailing number => text "tailing data" ++ inParens number
  | trailingLabel number => text "tailing data after label" ++ inParens number
  | duplicateBlock name number => text "duplicate block " ++ name ++ inParens number
  | unknownTerminator name number =>
    text "unknown terminator " ++ Quoted.quote name ++ inParens number
  | unknownOpcode name number => text "unknown opcode " ++ Quoted.quote name ++ inParens number
  | redefined name number => text "value %" ++ name ++ text " is redefined" ++ inParens number
  | outsideBlock number => text "op outside of a block" ++ inParens number
  | unknownValue name number =>
    text "reference to unknown value %" ++ name ++ inParens number
  | unknownTarget name number => text "branch to unknown block " ++ name ++ inParens number
  | noBlocks func => text "function " ++ func ++ text " has no blocks"
  | unterminated func => text "function " ++ func ++ text " is not terminated"
  | longLine => text "bufio.Scanner: token too long"
  | defect d => d.message

end Disguise.Syntax
