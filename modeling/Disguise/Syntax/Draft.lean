import Disguise.Graph.Edit
import Disguise.Syntax.Line
import Disguise.Text.Dictionary

/-!
Functions as written, with names in place of references. A draft grows line by line; when its last
line is read, the names are resolved and the function becomes part of a graph.
-/
namespace Disguise.Syntax
open Bytes Reader

inductive DraftArg where
  | const (c : Const)
  | named (name : Bytes)
  deriving DecidableEq, Repr

structure DraftOp where
  code : Opcode
  bits : Int := 0
  args : List DraftArg := []
  targets : List Bytes := []
  result : Option Bytes := none
  line : Nat
  deriving DecidableEq, Repr

structure Header where
  name : Bytes
  external : Bool := false
  params : List (Bytes × Int) := []
  retBits : Int
  annotation : Bytes := []
  metadata : List Bytes := []
  hasBody : Bool

/-- The param or the op that gives a value, by its place in the function. -/
inductive Origin where
  | param (i : Nat)
  | op (i : Nat)
  deriving DecidableEq, Repr

/-- A function under construction; blocks and their ops are kept in reverse. -/
structure Draft where
  header : Header
  blocks : List (Bytes × List DraftOp) := []
  numOps : Nat := 0
  values : Dictionary Origin
  /-- The places of the blocks. -/
  labels : Dictionary Nat := .empty

namespace Draft

/-- A function without blocks. Of two params of a name the last one gives the value. -/
def start (h : Header) : Draft :=
  { header := h, values := h.params.zipIdx.foldl (fun d (p, i) => d.insert (.param i) p.1) .empty }

/-- The blocks as written. -/
def body (d : Draft) : List (Bytes × List DraftOp) :=
  (d.blocks.map fun b => (b.1, b.2.reverse)).reverse

def ops (d : Draft) : List DraftOp := d.body.flatMap (·.2)

end Draft

def param : Reader (Bytes × Int) := do
  let bits ← type
  expect (byte '%')
  let name ← ident
  if name.head?.any isDigitByte then fail (.digitParam name)
  pure (name, bits)

/-- What may stand behind the return type; the metadata is kept in reverse. -/
structure Attributes where
  annotation : Bytes := []
  metadata : List Bytes := []

def tag (fuel : Nat) (a : Attributes) : Reader Attributes := do
  let name ← ident
  if name = text "annotate" then
    expect (byte '(')
    let s ← quoted
    expect (byte ')')
    pure { a with annotation := s }
  else if name = text "metadata" then
    expect (byte '(')
    let entries ← listUntil (byte ')') quoted fuel
    expect (byte ')')
    pure { a with metadata := entries.reverse ++ a.metadata }
  else fail (.unknownAttribute name)

def openBrace : UInt8 := 123
def closeBrace : UInt8 := 125

/-- Attributes up to the brace or the end of the line. -/
def attributes : Nat → Attributes → Reader Attributes
  | 0, a => pure a
  | fuel + 1, a => do
    if ← atEnd then pure a
    else if (← peek) = openBrace then pure a
    else attributes fuel (← tag fuel a)

def header : Reader Header := do
  let word ← ident
  let external := word = text "external"
  let word ← if external then ident else pure word
  if word ≠ text "func" ∧ word ≠ text "declare" then fail (.noKeyword word)
  let hasBody := word = text "func"
  let name ← ident
  expect (byte '(')
  let params ← listUntil (byte ')') param ((← get).length + 1)
  expect (byte ')')
  let retBits ← type
  let a ← attributes ((← get).length + 1) {}
  if hasBody then expect openBrace
  done
  pure {
    name, external, params, retBits, hasBody
    annotation := a.annotation, metadata := a.metadata.reverse }

/-- A constant of the given width or the name of a value. -/
def operand (bits : Int) : Reader DraftArg := do
  let b ← peek
  if b = byte '%' then
    expect (byte '%')
    pure (.named (← ident))
  else if isDigitByte b then
    let numeral ← ident
    match Numeral.anyBase UInt64.size numeral with
    | .error fault => fail (.badConst numeral fault)
    | .ok n =>
      let v := UInt64.ofNat n
      if Word.fits v bits then pure (.const ⟨v, bits⟩) else fail (.wideConst numeral bits)
  else fail .noOperand

/-- Operands and targets of a terminator. -/
def terminatorParts (retBits : Int) : Opcode → Reader (List DraftArg × List Bytes)
  | .ret => do
    if ← atEnd then pure ([], []) else pure ([← operand retBits], [])
  | .br => do pure ([], [← ident])
  | .brif => do
    let condition ← operand 1
    expect (byte ',')
    let yes ← ident
    expect (byte ',')
    let no ← ident
    pure ([condition], [yes, no])
  | _ => pure ([], [])

namespace Draft

/-- Runs a reader on what is left of a line. -/
def reading {α : Type} (number : Nat) (line rest : Bytes) (r : Reader α) :
    Except SyntaxError (α × Bytes) :=
  (r.run rest).mapError (.inLine number line)

/-- A new op at the end of the last block. -/
def addOp (d : Draft) (op : DraftOp) : Except SyntaxError Draft :=
  match d.blocks with
  | [] => .error (.outsideBlock op.line)
  | (name, ops) :: rest => .ok
    { d with
      blocks := (name, op :: ops) :: rest
      numOps := d.numOps + 1
      values := op.result.elim d.values fun result => d.values.insert (.op d.numOps) result }

/-- A new block at the end. -/
def addBlock (d : Draft) (name : Bytes) : Draft :=
  { d with blocks := (name, []) :: d.blocks, labels := d.labels.insert d.blocks.length name }

def addTerminator (d : Draft) (number : Nat) (line : Bytes) (name rest : Bytes) :
    Except SyntaxError Draft := do
  match (Opcode.parse? name).filter (·.isTerminator) with
  | none => .error (.unknownTerminator name number)
  | some code =>
    let ((args, targets), _) ← reading number line rest do
      let parts ← terminatorParts d.header.retBits code
      done
      pure parts
    d.addOp { code, args, targets, line := number }

def addValue (d : Draft) (number : Nat) (line rest : Bytes) : Except SyntaxError Draft := do
  let ((result, name), rest) ← reading number line rest do
    expect (byte '%')
    let result ← ident
    expect (byte '=')
    pure (result, ← ident)
  match (Opcode.parse? name).filter (!·.isTerminator) with
  | none => .error (.unknownOpcode name number)
  | some code =>
    let ((bits, args), _) ← reading number line rest do
      let bits ← type
      pure (bits, ← listToEnd (operand bits) ((← get).length + 1))
    if d.values.contains result then .error (.redefined result number)
    else d.addOp { code, bits, args, result := some result, line := number }

/-- A line of the body: a label, a terminator or an op with a result. -/
def addLine (d : Draft) (number : Nat) (line rest : Bytes) : Except SyntaxError Draft := do
  if rest.head? = some (byte '%') then d.addValue number line rest
  else
    let (name, rest) ← reading number line rest ident
    if rest.head? = some (byte ':') then
      if !(rest.drop 1).all isSpace then .error (.trailingLabel number)
      else if d.labels.contains name then .error (.duplicateBlock name number)
      else .ok (d.addBlock name)
    else d.addTerminator number line name rest

/-- The first reference to a value or, all values known, to a block that is not there. -/
def unresolved (d : Draft) : Option SyntaxError :=
  let values := d.ops.flatMap fun op => op.args.filterMap fun
    | .named name =>
      if d.values.contains name then none else some (.unknownValue name op.line)
    | .const _ => none
  let targets := d.ops.flatMap fun op => op.targets.filterMap fun name =>
    if d.labels.contains name then none else some (.unknownTarget name op.line)
  (values ++ targets).head?

/-- Puts a function with all its parts into a graph, where it belongs to a module. -/
def build (d : Draft) (g : Graph) (m : ModuleId) : Graph × FuncId :=
  let h := d.header
  let body := d.body
  let firstParam := g.params.size
  let firstBlock := g.blocks.size
  let firstOp := g.ops.size
  let (g, f) := g.newFunc
    { owner := some m, name := h.name, retBits := h.retBits, annotation := h.annotation
      metadata := h.metadata, external := h.external
      params := (List.range h.params.length).map fun i => ⟨firstParam + i⟩
      blocks := (List.range body.length).map fun i => ⟨firstBlock + i⟩ }
  let g := h.params.foldl (fun g p => (g.newParam p.1 p.2 (some f)).1) g
  let g := body.foldl (fun g b => (g.newBlock f b.1).1) g
  let operand : DraftArg → Option Operand
    | .const c => some (.const c)
    | .named name => (d.values.find? name).map fun
      | .param i => .param ⟨firstParam + i⟩
      | .op i => .result ⟨firstOp + i⟩
  let target (name : Bytes) : Option BlockId :=
    (d.labels.find? name).map fun i => ⟨firstBlock + i⟩
  let g := d.ops.foldl (fun g op =>
    (g.newOp op.code op.bits (op.args.map operand) (op.targets.map target)).1) g
  let (g, _, _) := body.foldl (fun (s : Graph × Nat × Nat) b =>
    let (g, bi, oi) := s
    let ops := (List.range b.2.length).map fun i => OpId.mk (oi + i)
    let g := ops.foldl (fun g o => g.enlist ⟨bi⟩ o) g
    (g.modifyBlock ⟨bi⟩ fun bl => { bl with ops }, bi + 1, oi + b.2.length))
    (g, firstBlock, firstOp)
  (g, f)

/-- The finished function, if all names are resolved and there is a block. -/
def finish (d : Draft) (g : Graph) (m : ModuleId) : Except SyntaxError (Graph × FuncId) :=
  match d.unresolved with
  | some e => .error e
  | none => if d.blocks.isEmpty then .error (.noBlocks d.header.name) else .ok (d.build g m)

end Draft
end Disguise.Syntax
