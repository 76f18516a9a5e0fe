import Disguise.Graph.Basic
import Disguise.Text.Blank
import Disguise.Text.Numeral

/-!
Which functions are transformed and how often. A function's tags decide, in this order: metadata,
the words of its annotation, markers in its name, and at last a global flag. A tag that starts with
`no` goes before the plain one at every place.
-/
namespace Disguise

/-- A decision procedure for functions. -/
structure Selector where
  selects : Func → Bool
  passes : Func → Int
  /-- What the procedure has to say about a function while it decides. -/
  remarks : Func → List Bytes := fun _ => []

namespace Tags

/-- Whether an option is switched off or on, if at all. -/
def bool? (tags : List Bytes) (name : Bytes) : Option Bool :=
  if text "no" ++ name ∈ tags then some false
  else if name ∈ tags then some true
  else none

/-- The number of the first entry of the form `name=N`; what is no number of 32 bits reads as
zero. -/
def number? (tags : List Bytes) (name : Bytes) : Option Nat :=
  (tags.findSome? (Bytes.stripPrefix? (name ++ text "="))).map fun digits =>
    match Numeral.natural 10 UInt32.size digits with
    | .ok n => n
    | .error _ => 0

end Tags

structure Policy where
  /-- The tag that asks for the transformation; the empty name stands for the usual one. -/
  feature : Bytes := []
  flag : Bool := false
  passes : Int := 0
  /-- Look for `_feature_` and `_nofeature_` in names. -/
  matchNames : Bool := false

namespace Policy

def defaultFeature : Bytes := text "sub"

def tag (p : Policy) : Bytes := if p.feature.isEmpty then defaultFeature else p.feature

def marker (name : Bytes) : Bytes := text "_" ++ name ++ text "_"

/-- What the name of a function says. -/
def byName? (p : Policy) (f : Func) : Option Bool :=
  if !p.matchNames then none
  else if Bytes.occursIn (marker (text "no" ++ p.tag)) f.name then some false
  else if Bytes.occursIn (marker p.tag) f.name then some true
  else none

/-- What the tags of a function say. -/
def byTags? (p : Policy) (f : Func) : Option Bool :=
  (Tags.bool? f.metadata p.tag).or (Tags.bool? (Blank.words f.annotation) p.tag)

def eligible (f : Func) : Bool := !f.isDeclaration && !f.external

def selects (p : Policy) (f : Func) : Bool :=
  eligible f && ((p.byTags? f).or (p.byName? f)).getD p.flag

def passCount (p : Policy) (f : Func) : Int :=
  let name := p.tag ++ text "_loop"
  match (Tags.number? f.metadata name).or (Tags.number? (Blank.words f.annotation) name) with
  | some n => n
  | none => p.passes

/-- A decision made by the name is worth a remark. -/
def remarks (p : Policy) (f : Func) : List Bytes :=
  if eligible f && (p.byTags? f).isNone then
    match p.byName? f with
    | some yes => [(if yes then [] else text "no") ++ p.tag ++ text " function: " ++ f.name]
    | none => []
  else []

def selector (p : Policy) : Selector := ⟨p.selects, p.passCount, p.remarks⟩

end Policy

/-- Adds to the metadata the words of the annotation that are not there yet. -/
def Func.tagged (f : Func) : Func :=
  let add (tags : List Bytes) (word : Bytes) := if word ∈ tags then tags else tags ++ [word]
  { f with metadata := (Blank.words f.annotation).foldl add f.metadata }

/-- Copies annotations into metadata for all functions of a module. -/
def Graph.tagModule (g : Graph) (m : ModuleId) : Graph :=
  (g.module m).funcs.foldl (fun g f => g.modifyFunc f Func.tagged) g

end Disguise
