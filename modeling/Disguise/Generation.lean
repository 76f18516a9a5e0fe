import Disguise.Dominance
import Disguise.Graph.Edit
import Disguise.Random

/-!
Random programs. Branches go forward only and divisors and shift amounts are guarded, so every
generated function ends with a value on all arguments.
-/
namespace Disguise.Generation

/-- The widths of generated functions. -/
def widths : List Int := [1, 4, 8, 16, 32, 64]

/-- The codes to choose from, the replaceable ones three times each. -/
def codes (bits : Int) : List Opcode :=
  Opcode.all.flatMap fun code =>
    if code.isTerminator then []
    else if code.isFloat && bits ≠ 32 && bits ≠ 64 then []
    else if (code = .sdiv || code = .srem) && bits = 1 then []
    else if code ∈ [Opcode.add, .sub, .mul, .and, .or, .xor] then [code, code, code]
    else [code]

/-- A function under construction: the values and conditions each block defines. -/
structure State where
  graph : Graph
  func : FuncId
  bits : Int
  dominators : List (Option PlaceSet)
  values : List (List Operand)
  conditions : List (List Operand)

namespace State

/-- What the pools of the blocks that dominate block `bi` offer. -/
def visible (s : State) (bi : Nat) (pools : List (List Operand)) : List Operand :=
  let above := (s.dominators.getD bi none).getD default
  (List.range (bi + 1)).flatMap fun d => if above.contains d then pools.getD d [] else []

def constant (bits : Int) (v : UInt64) : Choice Operand := do
  pure (.const (← (Graph.constant v bits : Except Violation Const)))

def pick (vals : List Operand) (i : Nat) : Operand := vals.getD i (.const ⟨0, 0⟩)

/-- A value for an operand slot in block `bi`; recent ones are preferred. -/
def operand (s : State) (bi : Nat) : Choice Operand := do
  let vals := s.visible bi s.values
  if ← (if vals.isEmpty then pure true else Choice.oneIn 5) then
    constant s.bits (← Choice.biased s.bits)
  else if ← Choice.coin then
    pure (pick vals (vals.length - 1 - (← Choice.below (min vals.length 4))))
  else pure (pick vals (← Choice.below vals.length))

/-- A condition for use in block `bi`. -/
def condition (s : State) (bi : Nat) : Choice Operand := do
  let vals := s.visible bi s.conditions
  if ← (if vals.isEmpty then pure true else Choice.oneIn 6) then
    constant 1 (← Choice.biased 1)
  else pure (pick vals (← Choice.below vals.length))

/-- Places a new op before the terminator of block `bi`. -/
def place (s : State) (bi : Nat) (code : Opcode) (bits : Int) (args : List Operand) :
    Except Violation (State × Operand) := do
  let b := (s.graph.func s.func).blocks.getD bi default
  match s.graph.terminator? b with
  | none => .error .absent
  | some last =>
    let (g, o) := s.graph.newOp code bits (args.map some) []
    let g ← g.insertBefore b last [o]
    pure ({ s with graph := g }, .result o)

/-- Places an op whose result is offered as a value. -/
def emit (s : State) (bi : Nat) (code : Opcode) (args : List Operand) :
    Choice (State × Operand) := do
  let (s, v) ← (s.place bi code s.bits args : Except Violation _)
  pure ({ s with values := s.values.modify bi (· ++ [v]) }, v)

def addCondition (s : State) (bi : Nat) : Choice State := do
  let code := [Opcode.and, .or, .xor, .add].getD (← Choice.below 4) .and
  let x ← s.condition bi
  let y ← s.condition bi
  let (s, v) ← (s.place bi code 1 [x, y] : Except Violation _)
  pure { s with conditions := s.conditions.modify bi (· ++ [v]) }

/-- One op, with the ops that keep it from failing: a divisor is made odd, a signed dividend
nonnegative, and a shift amount smaller than the width. -/
def addValue (s : State) (bi : Nat) : Choice State := do
  let menu := codes s.bits
  let code := menu.getD (← Choice.below menu.length) .add
  match code with
  | .not | .neg =>
    let (s, _) ← s.emit bi code [← s.operand bi]
    pure s
  | .udiv | .urem =>
    let d ← s.operand bi
    let (s, y) ← s.emit bi .or [d, ← constant s.bits 1]
    let (s, _) ← s.emit bi code [← s.operand bi, y]
    pure s
  | .sdiv | .srem =>
    let n ← s.operand bi
    let (s, x) ← s.emit bi .lshr [n, ← constant s.bits 1]
    let d ← s.operand bi
    let (s, y) ← s.emit bi .or [d, ← constant s.bits 1]
    let (s, _) ← s.emit bi code [x, y]
    pure s
  | .shl | .lshr | .ashr =>
    let a ← s.operand bi
    let (s, y) ← s.emit bi .urem [a, ← constant s.bits (UInt64.ofInt s.bits)]
    let (s, _) ← s.emit bi code [← s.operand bi, y]
    pure s
  | _ =>
    let x ← s.operand bi
    let (s, _) ← s.emit bi code [x, ← s.operand bi]
    pure s

def addOp (s : State) (bi : Nat) : Choice State := do
  if ← Choice.oneIn 8 then s.addCondition bi else s.addValue bi

def addOps (s : State) (bi : Nat) : Nat → Choice State
  | 0 => pure s
  | n + 1 => do addOps (← s.addOp bi) bi n

/-- Gives the terminator of block `bi` its operand. -/
def finishBlock (s : State) (bi : Nat) : Choice State := do
  let b := (s.graph.func s.func).blocks.getD bi default
  match s.graph.terminator? b with
  | none => throw .absent
  | some last =>
    let fill (v : Operand) : Choice State := do
      pure { s with graph := ← (s.graph.setArg last 0 (some v) : Except Violation _) }
    match (s.graph.op last).code with
    | .ret => fill (← s.operand bi)
    | .brif => fill (← s.condition bi)
    | _ => pure s

/-- Fills the blocks from number `bi` on; `sizes` are the op counts of these blocks. -/
def fillBlocks (s : State) : Nat → List Nat → Choice State
  | _, [] => pure s
  | bi, n :: sizes => do
    let s ← s.addOps bi n
    let s ← s.finishBlock bi
    fillBlocks s (bi + 1) sizes

end State

/-- Where block `i` of `count` branches to: to the next block, sometimes also further down, and
from the last block nowhere. -/
def forward (count i : Nat) : Choice (List Nat) := do
  if count ≤ i + 1 then pure []
  else if count ≤ i + 2 then pure [i + 1]
  else if ← Choice.coin then pure [i + 1, i + 2 + (← Choice.below (count - i - 2))]
  else pure [i + 1]

/-- Gives block `i` a terminator with an empty operand. -/
def addTerminator (blocks : List BlockId) (g : Graph) (i : Nat) : Choice Graph := do
  let targets := (← forward blocks.length i).map fun k => blocks[k]?
  let (g, o) := match targets with
    | [] => g.newOp .ret 0 [none] []
    | [next] => g.newOp .br 0 [] [next]
    | _ => g.newOp .brif 0 [none] targets
  (g.append (blocks.getD i default) [o] : Except Violation Graph)

/-- Params named `a`, `b`, … and a one-bit param `cond`. -/
def addParams (g : Graph) (f : FuncId) (count : Nat) (bits : Int) : Graph × List ParamId :=
  let specs := (List.range count).map (fun i => ([(97 + i).toUInt8], bits)) ++ [(text "cond", 1)]
  let (g, ps) := specs.foldl (fun (g, ps) (name, bits) =>
    let (g, p) := g.newParam name bits (some f)
    (g, ps ++ [p])) (g, [])
  (g.modifyFunc f fun fn => { fn with params := ps }, ps)

def blockName (i : Nat) : Bytes := if i = 0 then text "entry" else text "bb" ++ Bytes.decimalNat i

/-- A function of about `size` ops on values of the given width. -/
def func (g : Graph) (name : Bytes) (bits size : Int) : Choice (Graph × FuncId) := do
  let (g, f) := g.newFunc { name, retBits := bits }
  let count := 2 + (← Choice.below 2)
  let (g, params) := addParams g f count bits
  let blockCount := 1 + (← Choice.below (1 + min (size.tdiv 8) 5))
  let g := (List.range blockCount).foldl (fun g i => (g.addBlock f (blockName i)).1) g
  let blocks := (g.func f).blocks
  let g ← (List.range blockCount).foldlM (addTerminator blocks) g
  let empty : List (List Operand) := List.replicate blockCount []
  let s : State :=
    { graph := g, func := f, bits, dominators := g.dominators f
      values := empty.set 0 ((params.take count).map .param)
      conditions := empty.set 0 ((params.drop count).map .param) }
  let share := size.tdiv blockCount
  let sizes := (List.range blockCount).map fun i =>
    (if i = 0 then share + size.tmod blockCount else share).toNat
  let s ← s.fillBlocks 0 sizes
  pure (s.graph, f)

def funcs (m : ModuleId) (size : Int) : (left i : Nat) → Graph → Choice Graph
  | 0, _, g => pure g
  | left + 1, i, g => do
    let bits := widths.getD (← Choice.below widths.length) 1
    let (g, f) ← func g (text "f" ++ Bytes.decimalNat i) bits size
    funcs m size left (i + 1) (g.addFunc m f)

/-- A module of one to three functions of about `size` ops each. -/
def module (g : Graph) (size : Int) : Choice (Graph × ModuleId) := do
  let count := 1 + (← Choice.below 3)
  let (g, m) := g.newModule
  pure (← funcs m size count 0 g, m)

end Disguise.Generation
