import Disguise.Syntax.Draft

/-!
Reading a whole module. Lines are taken one after the other, and the first one that is wrong ends
the reading; the program that results has to be valid.
-/
namespace Disguise.Syntax
open Bytes Reader

/-- Lines of this many bytes are not read. -/
def lineLimit : Nat := 1048576

/-- The lines of a text; nothing behind the last newline is no line. -/
def linesOf (s : Bytes) : List Bytes :=
  let pieces := s.split newline
  if pieces.getLast? = some [] then pieces.dropLast else pieces

/-- A module being read: the functions that are finished, the last one first, and the one whose
body is open. -/
structure Reading where
  graph : Graph
  module : ModuleId
  funcs : List FuncId := []
  draft : Option Draft := none

namespace Reading

def addLine (s : Reading) (number : Nat) (raw : Bytes) : Except SyntaxError Reading := do
  let line := raw.dropRightWhile fun b => isSpace b || b = 13
  let rest := line.dropWhile isSpace
  match rest.head? with
  | none => pure s
  | some b =>
    if b = byte '#' then pure s
    else match s with
      | ⟨graph, module, funcs, none⟩ =>
        let (h, _) ← Draft.reading number line rest header
        if h.hasBody then pure { graph, module, funcs, draft := some (.start h) }
        else
          let (graph, f) := (Draft.start h).build graph module
          pure { graph, module, funcs := f :: funcs }
      | ⟨graph, module, funcs, some d⟩ =>
        if b = closeBrace then
          if !(rest.drop 1).all isSpace then .error (.trailing number)
          else
            let (graph, f) ← d.finish graph module
            pure { graph, module, funcs := f :: funcs }
        else pure { graph, module, funcs, draft := some (← d.addLine number line rest) }

def addLines (s : Reading) : Nat → List Bytes → Except SyntaxError Reading
  | _, [] => .ok s
  | number, raw :: rest =>
    if lineLimit ≤ raw.length then .error .longLine
    else do
      let s ← s.addLine number raw
      addLines s (number + 1) rest

end Reading

/-- Reads the text of a module into a graph and checks the result. -/
def parseInto (g : Graph) (s : Bytes) : Except SyntaxError (Graph × ModuleId) := do
  let (g, m) := g.newModule
  let r ← Reading.addLines { graph := g, module := m } 1 (linesOf s)
  match r.draft with
  | some d => .error (.unterminated d.header.name)
  | none =>
    let g := r.graph.modifyModule m fun md => { md with funcs := r.funcs.reverse }
    (g.validate m).mapError .defect
    pure (g, m)

def parse (s : Bytes) : Except SyntaxError (Graph × ModuleId) := parseInto {} s

end Disguise.Syntax
