import Disguise.Log
import Disguise.Policy
import Disguise.Substitution.Apply
import Disguise.Text.Quoted

/-!
The substitution engine. A pass visits the ops that a function has when the pass starts, and
replaces each one that has an enabled rule by the chain of a rule chosen at random.
-/
namespace Disguise

/-- How many ops of each code were replaced. -/
structure Stats where
  add : Nat := 0
  sub : Nat := 0
  mul : Nat := 0
  and : Nat := 0
  or : Nat := 0
  xor : Nat := 0
  deriving DecidableEq, Repr, Inhabited

namespace Stats

def count (s : Stats) : Opcode → Nat
  | .add => s.add
  | .sub => s.sub
  | .mul => s.mul
  | .and => s.and
  | .or => s.or
  | .xor => s.xor
  | _ => 0

def bump (s : Stats) : Opcode → Stats
  | .add => { s with add := s.add + 1 }
  | .sub => { s with sub := s.sub + 1 }
  | .mul => { s with mul := s.mul + 1 }
  | .and => { s with and := s.and + 1 }
  | .or => { s with or := s.or + 1 }
  | .xor => { s with xor := s.xor + 1 }
  | _ => s

instance : Add Stats where
  add a b :=
    { add := a.add + b.add, sub := a.sub + b.sub, mul := a.mul + b.mul, and := a.and + b.and
      or := a.or + b.or, xor := a.xor + b.xor }

/-- The codes that were replaced at all, with their counts. -/
def entries (s : Stats) : List (Opcode × Nat) :=
  (Rule.replaceable.map fun c => (c, s.count c)).filter (·.2 ≠ 0)

def total (s : Stats) : Nat := s.add + s.sub + s.mul + s.and + s.or + s.xor

/-- Such as `add=2 xor=1`. -/
def render (s : Stats) : Bytes :=
  Bytes.join (text " ") (s.entries.map fun e => e.1.name ++ text "=" ++ Bytes.decimalNat e.2)

end Stats

/-- What an engine has to say about its work. -/
inductive Notice where
  /-- A function is to be transformed a number of times that is not positive. -/
  | badPassCount (passes : Int)
  | remark (line : Bytes)
  | finished (func : Bytes) (stats : Stats)
  deriving DecidableEq, Repr

namespace Notice

def message : Notice → Bytes
  | badPassCount passes =>
    text "substitution application number sub_loop=" ++ Bytes.decimal passes ++
      text " must be x > 0"
  | remark line => line
  | finished func stats => func ++ text ": " ++ stats.render

def entry : Notice → Log.Entry
  | n@(badPassCount _) => Log.warning n.message
  | n => ⟨1, n.message⟩

end Notice

namespace Engine

structure Options where
  passes : Int := 0
  expandUnary : Bool := false
  eraseDead : Bool := false
  /-- Names of rules that are not applied. -/
  disabled : List Bytes := []
  deriving DecidableEq, Repr

/-- The rules for a code that are not disabled. -/
def Options.rules (opts : Options) (code : Opcode) : List Rule :=
  (Rule.table code).filter fun r => !opts.disabled.contains r.name

/-- The first name among the disabled rules that no rule has. -/
def Options.unknownRule? (opts : Options) : Option Bytes :=
  opts.disabled.find? fun name => (Rule.find? name).isNone

/-- What is said of a name that no rule has. -/
def unknownRule [Unicode] (name : Bytes) : Bytes := text "unknown rule " ++ Quoted.quote name

/-- What is known in the middle of a pass; lists have the latest entry first. -/
structure Progress where
  graph : Graph
  stats : Stats := {}
  replaced : List OpId := []
  /-- The lengths of the chains. -/
  lengths : List Nat := []

/-- Visits one op of an edited block. -/
def visit (opts : Options) (s : Editor × Progress) (o : OpId) : Choice (Editor × Progress) := do
  let (e, p) := s
  let code := (p.graph.op o).code
  match opts.rules code with
  | [] => pure (e, p)
  | first :: rest =>
    let rules := first :: rest
    let rule := rules.getD (← Choice.below rules.length) first
    match ← Substitution.applyQueued rule e p.graph o opts.expandUnary with
    | none => pure (e, p)
    | some (e, g, length) =>
      pure (e,
        { graph := g, stats := p.stats.bump code, replaced := o :: p.replaced
          lengths := length :: p.lengths })

def visitBlock (opts : Options) (p : Progress) (b : BlockId) : Choice Progress := do
  let (e, p) ← (p.graph.block b).ops.foldlM (visit opts) ({ block := b }, p)
  let (_, g) ← (e.commit p.graph : Except Violation _)
  pure { p with graph := g }

/-- What a pass did. -/
structure Tally where
  stats : Stats := {}
  lengths : List Nat := []
  erased : Nat := 0

instance : Append Tally where
  append a b := ⟨a.stats + b.stats, a.lengths ++ b.lengths, a.erased + b.erased⟩

/-- One pass over a function. -/
def pass (opts : Options) (g : Graph) (f : FuncId) : Choice (Graph × Tally) := do
  let p ← (g.func f).blocks.foldlM (visitBlock opts) { graph := g }
  let (g, erased) ←
    if opts.eraseDead then (p.graph.removeDead p.replaced.reverse : Except Violation _)
    else pure (p.graph, 0)
  pure (g, { stats := p.stats, lengths := p.lengths.reverse, erased })

/-- Whether a pass has nothing to visit. -/
def idle (opts : Options) (g : Graph) (f : FuncId) : Bool :=
  (g.opsOf f).all fun o => (opts.rules (g.op o).code).isEmpty

/-- Adds passes to those that gave `t`. Once there is nothing to visit, the others are left out. -/
def passes (opts : Options) (f : FuncId) : Nat → Graph → (t : Tally) → Choice (Graph × Tally)
  | 0, g, t => pure (g, t)
  | n + 1, g, t => do
    if idle opts g f then pure (g, t)
    else
      let (g, new) ← pass opts g f
      passes opts f n g (t ++ new)

end Engine

/-- An engine with what it has done so far. -/
structure Engine where
  options : Engine.Options
  tally : Engine.Tally := {}
  notices : List Notice := []

namespace Engine

def note (e : Engine) (n : Notice) : Engine := { e with notices := e.notices ++ [n] }

/-- Transforms a function a given number of times. -/
def work (e : Engine) (g : Graph) (f : FuncId) (count : Nat) : Choice (Engine × Graph × Stats) := do
  let (g, t) ← passes e.options f count g {}
  pure ({ e with tally := e.tally ++ t }, g, t.stats)

/-- Transforms a function as often as the options say. -/
def substitute (e : Engine) (g : Graph) (f : FuncId) : Choice (Engine × Graph × Stats) :=
  if e.options.passes ≤ 0 then pure (e.note (.badPassCount e.options.passes), g, {})
  else e.work g f e.options.passes.toNat

/-- Transforms a function if the selector wants it, as often as the selector says. -/
def run (e : Engine) (g : Graph) (f : FuncId) (sel : Selector) :
    Choice (Engine × Graph × Option Stats) := do
  let count := sel.passes (g.func f)
  if count ≤ 0 then pure (e.note (.badPassCount count), g, none)
  else
    let e := (sel.remarks (g.func f)).foldl (fun e line => e.note (.remark line)) e
    if !sel.selects (g.func f) then pure (e, g, none)
    else
      let (e, g, stats) ← e.work g f count.toNat
      pure (e, g, some stats)

/-- Answers for a function that there is not: it is enough that nothing is to be done with it. -/
def decline (e : Engine) (count : Int) (wanted : Bool) : Except Violation Engine :=
  if count ≤ 0 then .ok (e.note (.badPassCount count))
  else if wanted then .error .absent
  else .ok e

def runFuncs (sel : Selector) :
    List FuncId → Engine → Graph → Stats → Choice (Engine × Graph × Stats)
  | [], e, g, stats => pure (e, g, stats)
  | f :: rest, e, g, stats => do
    let (e, g, done) ← e.run g f sel
    match done with
    | none => runFuncs sel rest e g stats
    | some s => runFuncs sel rest (e.note (.finished (g.func f).name s)) g (stats + s)

/-- Runs over all functions of a module in order. -/
def runModule (e : Engine) (g : Graph) (m : ModuleId) (sel : Selector) :
    Choice (Engine × Graph × Stats) :=
  runFuncs sel (g.module m).funcs e g {}

end Engine
end Disguise
