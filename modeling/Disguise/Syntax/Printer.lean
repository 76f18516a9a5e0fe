import Disguise.Graph.Basic
import Disguise.Text.Quoted

/-!
The text form of a program. Results are numbered in program order, so the text depends only on the
shape of the program and not on the names under which its parts are stored.
-/
namespace Disguise.Syntax
open Bytes

def comma : Bytes := text ", "

/-- The numbers of the value-producing ops, in program order. -/
def numbering (g : Graph) (f : FuncId) : Table (Option Nat) :=
  ((g.opsOf f).foldl (fun (t, n) o =>
    if (g.op o).code.isTerminator then (t, n) else (t.set o.idx (some n), n + 1))
    ((Table.empty : Table (Option Nat)), 0)).1

def resultName (n : Nat) : Bytes := text "%" ++ decimalNat n

def printOperand (g : Graph) (f : Func) (names : Table (Option Nat)) :
    Option Operand → Except Violation Bytes
  | some (.const c) => .ok (text "0x" ++ hex c.val.toNat)
  | none => .ok (text "nil")
  | some (.param p) =>
    if p ∈ f.params then .ok (text "%" ++ (g.param p).name) else .error .foreignReference
  | some (.result o) =>
    match names.get o.idx with
    | some n => .ok (resultName n)
    | none => .error .foreignReference

def printTarget (g : Graph) : Option BlockId → Except Violation Bytes
  | some b => .ok (g.block b).name
  | none => .error .absent

def printOp (g : Graph) (f : Func) (names : Table (Option Nat)) (o : OpId) :
    Except Violation Bytes := do
  let op := g.op o
  let args ← op.args.mapM (printOperand g f names)
  let targets ← op.targets.mapM (printTarget g)
  let start :=
    if op.code.isTerminator then
      op.code.name ++ (if op.args.isEmpty && op.targets.isEmpty then [] else text " ")
    else
      resultName ((names.get o.idx).getD 0) ++ text " = " ++ op.code.name ++ text " i" ++
        decimal op.bits ++ text " "
  pure (start ++ join comma (args ++ targets))

def printBlock (g : Graph) (f : Func) (names : Table (Option Nat)) (b : BlockId) :
    Except Violation Bytes := do
  let lines ← (g.block b).ops.mapM fun o => do
    pure (text "  " ++ (← printOp g f names o) ++ text "\n")
  pure ((g.block b).name ++ text ":\n" ++ lines.flatten)

variable [Unicode]

/-- The header line up to the brace of the body. -/
def printHeader (g : Graph) (f : Func) : Bytes :=
  (if f.external then text "external " else []) ++
  (if f.isDeclaration then text "declare " else text "func ") ++ f.name ++ text "(" ++
  join comma (f.params.map fun p =>
    text "i" ++ decimal (g.param p).bits ++ text " %" ++ (g.param p).name) ++
  text ") i" ++ decimal f.retBits ++
  (if f.annotation.isEmpty then [] else
    text " annotate(" ++ Quoted.quote f.annotation ++ text ")") ++
  (if f.metadata.isEmpty then [] else
    text " metadata(" ++ join comma (f.metadata.map Quoted.quote) ++ text ")")

def printFunc (g : Graph) (id : FuncId) : Except Violation Bytes := do
  let f := g.func id
  if f.isDeclaration then pure (printHeader g f ++ text "\n")
  else
    let names := numbering g id
    let blocks ← f.blocks.mapM (printBlock g f names)
    pure (printHeader g f ++ text " \x7b\n" ++ blocks.flatten ++ text "\x7d\n")

/-- Functions in module order, with an empty line between neighbours. -/
def printModule (g : Graph) (m : ModuleId) : Except Violation Bytes := do
  let funcs ← (g.module m).funcs.mapM (printFunc g)
  pure (join (text "\n") funcs)

/-- Names and op counts, such as `f[3]-g[10]`. -/
def summary (g : Graph) (m : ModuleId) : Bytes :=
  join (text "-") ((g.module m).funcs.map fun f =>
    (g.func f).name ++ text "[" ++ decimalNat (g.numOps f) ++ text "]")

end Disguise.Syntax
