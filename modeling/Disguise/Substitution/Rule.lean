import Disguise.Substitution.Chain

/-!
The catalog of substitution rules. Each rule replaces one binary operation by a chain that computes
the same word at every width; the comment above a rule gives the chain as a formula in the operands
`x` and `y` and a random constant `r`.
-/
namespace Disguise

structure Rule where
  name : Bytes
  code : Opcode
  build : Term → Term → Chain.Build Term

namespace Rule
open Chain

/-- `x - -y` -/
def addNeg : Rule :=
  { name := text "addNeg", code := .add
    build := fun x y => do op .sub x (← neg y) }

/-- `-(-x + -y)` -/
def addDoubleNeg : Rule :=
  { name := text "addDoubleNeg", code := .add
    build := fun x y => do
      let nx ← neg x
      let ny ← neg y
      neg (← op .add nx ny) }

/-- `((x + r) + y) - r` -/
def addRand : Rule :=
  { name := text "addRand", code := .add
    build := fun x y => do
      let r ← mask
      let s ← op .add x r
      let s ← op .add s y
      op .sub s r }

/-- `((x - r) + y) + r` -/
def addRand2 : Rule :=
  { name := text "addRand2", code := .add
    build := fun x y => do
      let r ← mask
      let s ← op .sub x r
      let s ← op .add s y
      op .add s r }

/-- `x - (~y - -1)` -/
def addSubstitution : Rule :=
  { name := text "addSubstitution", code := .add
    build := fun x y => do
      let ny ← not y
      let minusOne ← neg (← const 1)
      let s ← op .sub ny minusOne
      op .sub x s }

/-- `(x & y) + (x | y)` -/
def addSubstitution2 : Rule :=
  { name := text "addSubstitution2", code := .add
    build := fun x y => do
      let both ← op .and x y
      let any ← op .or x y
      op .add both any }

/-- `(x ^ y) + (x & y) * 2` -/
def addSubstitution3 : Rule :=
  { name := text "addSubstitution3", code := .add
    build := fun x y => do
      let both ← op .and x y
      let carry ← op .mul both (← const 2)
      let differ ← op .xor x y
      op .add differ carry }

/-- `x + -y` -/
def subNeg : Rule :=
  { name := text "subNeg", code := .sub
    build := fun x y => do op .add x (← neg y) }

/-- `((x + r) - y) - r` -/
def subRand : Rule :=
  { name := text "subRand", code := .sub
    build := fun x y => do
      let r ← mask
      let s ← op .add x r
      let s ← op .sub s y
      op .sub s r }

/-- `((x - r) - y) + r` -/
def subRand2 : Rule :=
  { name := text "subRand2", code := .sub
    build := fun x y => do
      let r ← mask
      let s ← op .sub x r
      let s ← op .sub s y
      op .add s r }

/-- `(x & ~y) - (~x & y)` -/
def subSubstitution : Rule :=
  { name := text "subSubstitution", code := .sub
    build := fun x y => do
      let nx ← not x
      let onlyY ← op .and nx y
      let ny ← not y
      let onlyX ← op .and x ny
      op .sub onlyX onlyY }

/-- `2 * (x & ~y) - (x ^ y)` -/
def subSubstitution2 : Rule :=
  { name := text "subSubstitution2", code := .sub
    build := fun x y => do
      let differ ← op .xor x y
      let ny ← not y
      let onlyX ← op .and x ny
      let twice ← op .mul (← const 2) onlyX
      op .sub twice differ }

/-- `(x + ~y) + 1` -/
def subSubstitution3 : Rule :=
  { name := text "subSubstitution3", code := .sub
    build := fun x y => do
      let ny ← not y
      let s ← op .add x ny
      op .add s (← const 1) }

/-- `(x | y) * (x & y) + (x & ~y) * (y & ~x)` -/
def mulSubstitution : Rule :=
  { name := text "mulSubstitution", code := .mul
    build := fun x y => do
      let nx ← not x
      let onlyY ← op .and y nx
      let ny ← not y
      let onlyX ← op .and x ny
      let cross ← op .mul onlyX onlyY
      let both ← op .and x y
      let any ← op .or x y
      let main ← op .mul any both
      op .add main cross }

/-- `(x | y) * (x & y) + ~(x | ~y) * (x & ~y)` -/
def mulSubstitution2 : Rule :=
  { name := text "mulSubstitution2", code := .mul
    build := fun x y => do
      let ny ← not y
      let onlyX ← op .and x ny
      let onlyY ← not (← op .or x ny)
      let cross ← op .mul onlyY onlyX
      let both ← op .and x y
      let any ← op .or x y
      let main ← op .mul any both
      op .add main cross }

/-- `(x ^ ~y) & x` -/
def andSubstitution : Rule :=
  { name := text "andSubstitution", code := .and
    build := fun x y => do
      let ny ← not y
      let same ← op .xor x ny
      op .and same x }

/-- `~(~x | ~y) & (r | ~r)` -/
def andSubstitutionRand : Rule :=
  { name := text "andSubstitutionRand", code := .and
    build := fun x y => do
      let r ← mask
      let nx ← not x
      let ny ← not y
      let nr ← not r
      let any ← op .or nx ny
      let ones ← op .or r nr
      op .and (← not any) ones }

/-- `(x | y) & ~(x ^ y)` -/
def andSubstitution2 : Rule :=
  { name := text "andSubstitution2", code := .and
    build := fun x y => do
      let same ← not (← op .xor x y)
      let any ← op .or x y
      op .and any same }

/-- `(~x | y) + (x + 1)` -/
def andSubstitution3 : Rule :=
  { name := text "andSubstitution3", code := .and
    build := fun x y => do
      let next ← op .add x (← const 1)
      let s ← op .or (← not x) y
      op .add s next }

/-- The complements of `x` and `y` by nor, and nor again. -/
def andNor : Rule :=
  { name := text "andNor", code := .and
    build := fun x y => do
      let nx ← nor x x
      let ny ← nor y y
      nor nx ny }

/-- The complement by nand of a nand that is computed twice. -/
def andNand : Rule :=
  { name := text "andNand", code := .and
    build := fun x y => do
      let n ← nand x y
      let n' ← nand x y
      nand n n' }

/-- `(x & y) | (x ^ y)` -/
def orSubstitution : Rule :=
  { name := text "orSubstitution", code := .or
    build := fun x y => do
      let both ← op .and x y
      let differ ← op .xor x y
      op .or both differ }

/-- `(((~x & r) | (x & ~r)) ^ ((~y & r) | (y & ~r))) | (~(~x | ~y) & (r | ~r))` -/
def orSubstitutionRand : Rule :=
  { name := text "orSubstitutionRand", code := .or
    build := fun x y => do
      let r ← mask
      let nx ← not x
      let ny ← not y
      let nr ← not r
      let a ← op .and nx r
      let b ← op .and x nr
      let c ← op .and ny r
      let d ← op .and y nr
      let maskedX ← op .or a b
      let maskedY ← op .or c d
      let differ ← op .xor maskedX maskedY
      let both ← not (← op .or nx ny)
      let ones ← op .or r nr
      let both ← op .and both ones
      op .or differ both }

/-- `(x + (x ^ y)) - (x & ~y)` -/
def orSubstitution2 : Rule :=
  { name := text "orSubstitution2", code := .or
    build := fun x y => do
      let onlyX ← op .and x (← not y)
      let s ← op .xor x y
      let s ← op .add x s
      op .sub s onlyX }

/-- `((x + y) + 1) + ~(y & x)` -/
def orSubstitution3 : Rule :=
  { name := text "orSubstitution3", code := .or
    build := fun x y => do
      let notBoth ← not (← op .and y x)
      let s ← op .add x y
      let s ← op .add s (← const 1)
      op .add s notBoth }

/-- The complement by nor of a nor that is computed twice. -/
def orNor : Rule :=
  { name := text "orNor", code := .or
    build := fun x y => do
      let n ← nor x y
      let n' ← nor x y
      nor n n' }

/-- The complements of `x` and `y` by nand, and nand again. -/
def orNand : Rule :=
  { name := text "orNand", code := .or
    build := fun x y => do
      let nx ← nand x x
      let ny ← nand y y
      nand nx ny }

/-- `(~x & y) | (x & ~y)` -/
def xorSubstitution : Rule :=
  { name := text "xorSubstitution", code := .xor
    build := fun x y => do
      let onlyY ← op .and y (← not x)
      let onlyX ← op .and x (← not y)
      op .or onlyY onlyX }

/-- `((~x & r) | (x & ~r)) ^ ((~y & r) | (y & ~r))` -/
def xorSubstitutionRand : Rule :=
  { name := text "xorSubstitutionRand", code := .xor
    build := fun x y => do
      let r ← mask
      let a ← op .and r (← not x)
      let nr ← not r
      let b ← op .and x nr
      let c ← op .and (← not y) r
      let d ← op .and y nr
      let maskedX ← op .or a b
      let maskedY ← op .or c d
      op .xor maskedX maskedY }

/-- `(x + y) - 2 * (x & y)` -/
def xorSubstitution2 : Rule :=
  { name := text "xorSubstitution2", code := .xor
    build := fun x y => do
      let two ← const 2
      let twice ← op .mul two (← op .and x y)
      let sum ← op .add x y
      op .sub sum twice }

/-- `x - (2 * (y & ~(x ^ y)) - y)` -/
def xorSubstitution3 : Rule :=
  { name := text "xorSubstitution3", code := .xor
    build := fun x y => do
      let s ← not (← op .xor x y)
      let s ← op .and y s
      let s ← op .mul (← const 2) s
      let s ← op .sub s y
      op .sub x s }

/-- Of the words nor and "and by nor" of `x` and `y`, the nor. -/
def xorNor : Rule :=
  { name := text "xorNor", code := .xor
    build := fun x y => do
      let nx ← nor x x
      let ny ← nor y y
      let both ← nor nx ny
      let neither ← nor x y
      nor both neither }

/-- The nand of "not only `y`" and "not only `x`", both made of nands. -/
def xorNand : Rule :=
  { name := text "xorNand", code := .xor
    build := fun x y => do
      let nx ← nand x x
      let notOnlyY ← nand nx y
      let ny ← nand y y
      let notOnlyX ← nand x ny
      nand notOnlyY notOnlyX }

/-- The codes that have rules, in catalog order. -/
def replaceable : List Opcode := [.add, .sub, .mul, .and, .or, .xor]

/-- The rules for a code. -/
def table : Opcode → List Rule
  | .add =>
    [addNeg, addDoubleNeg, addRand, addRand2, addSubstitution, addSubstitution2, addSubstitution3]
  | .sub => [subNeg, subRand, subRand2, subSubstitution, subSubstitution2, subSubstitution3]
  | .mul => [mulSubstitution, mulSubstitution2]
  | .and =>
    [andSubstitution, andSubstitutionRand, andSubstitution2, andSubstitution3, andNor, andNand]
  | .or => [orSubstitution, orSubstitutionRand, orSubstitution2, orSubstitution3, orNor, orNand]
  | .xor =>
    [xorSubstitution, xorSubstitutionRand, xorSubstitution2, xorSubstitution3, xorNor, xorNand]
  | _ => []

/-- All rules, in catalog order. -/
def catalog : List Rule := replaceable.flatMap table

def find? (name : Bytes) : Option Rule := catalog.find? (·.name == name)

end Rule
end Disguise
