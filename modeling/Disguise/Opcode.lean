import Disguise.Text.Bytes

/-!
Operation codes. Every code has a number and a name; numbers outside the table are kept as
`unknown`, so `ofInt` loses nothing.
-/
namespace Disguise

inductive Opcode where
  | invalid
  | add | sub | mul | and | or | xor
  | udiv | sdiv | fdiv | urem | srem | frem
  | shl | lshr | ashr
  | not | neg
  | br | brif | ret
  | unknown (n : Int)
  deriving DecidableEq, Repr, Inhabited

namespace Opcode

/-- The codes a program may use, in numbering order from one. -/
def all : List Opcode :=
  [add, sub, mul, and, or, xor, udiv, sdiv, fdiv, urem, srem, frem, shl, lshr, ashr, not, neg,
    br, brif, ret]

def toInt : Opcode → Int
  | unknown n => n
  | c => (invalid :: all).idxOf c

def ofInt (n : Int) : Opcode :=
  if n < 0 then unknown n else ((invalid :: all)[n.toNat]?).getD (unknown n)

def name : Opcode → Bytes
  | invalid => text "invalid"
  | add => text "add" | sub => text "sub" | mul => text "mul"
  | and => text "and" | or => text "or" | xor => text "xor"
  | udiv => text "udiv" | sdiv => text "sdiv" | fdiv => text "fdiv"
  | urem => text "urem" | srem => text "srem" | frem => text "frem"
  | shl => text "shl" | lshr => text "lshr" | ashr => text "ashr"
  | not => text "not" | neg => text "neg"
  | br => text "br" | brif => text "brif" | ret => text "ret"
  | unknown n => text "opcode(" ++ Bytes.decimal n ++ text ")"

def parse? (s : Bytes) : Option Opcode := all.find? (·.name == s)

/-- Two operands and a result. -/
def isBinary : Opcode → Bool
  | add | sub | mul | and | or | xor | udiv | sdiv | fdiv | urem | srem | frem
  | shl | lshr | ashr => true
  | _ => false

def isUnary : Opcode → Bool
  | not | neg => true
  | _ => false

/-- Ends a block. -/
def isTerminator : Opcode → Bool
  | br | brif | ret => true
  | _ => false

/-- Reads its operands as floating-point numbers. -/
def isFloat : Opcode → Bool
  | fdiv | frem => true
  | _ => false

theorem parse?_name : ∀ c ∈ all, parse? c.name = some c := by decide

theorem ofInt_toInt : ∀ c ∈ all, ofInt c.toInt = c := by decide

end Opcode
end Disguise
