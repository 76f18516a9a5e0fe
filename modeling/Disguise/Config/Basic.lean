import Disguise.Substitution.Engine

/-!
The settings of a run, with the limits that a complete configuration keeps.
-/
namespace Disguise

structure Config where
  /-- Transform the functions whose tags say nothing. -/
  sub : Bool := false
  /-- Passes over a function. -/
  subLoop : Int := 1
  matchNames : Bool := false
  expandUnary : Bool := false
  eraseDead : Bool := false
  disabledRules : List Bytes := []
  /-- The seed of the random source; -1 asks for one that differs from run to run. -/
  seed : Int := -1
  /-- Use a random source that cannot be foretold, and no seed. -/
  cryptoRand : Bool := false
  /-- Files that may be worked on at a time. -/
  workers : Int := 1
  /-- Random inputs on which every transformed function is checked. -/
  verifyIters : Int := 0
  deriving DecidableEq, Repr

namespace Config

/-- Why a configuration is refused. -/
inductive Defect where
  | unknownRule (name : Bytes)
  | workers (n : Int)
  | verifyIters (n : Int)
  | seed (n : Int)
  deriving DecidableEq, Repr

def Defect.message [Unicode] : Defect → Bytes
  | unknownRule name =>
    text "config param disabled_rules contains unknown rule " ++ Quoted.quote name
  | workers n => text "bad config param workers: " ++ Bytes.decimal n ++ text ", want >= 1"
  | verifyIters n => text "bad config param verify_iters: " ++ Bytes.decimal n ++ text ", want >= 0"
  | seed n => text "bad config param seed: " ++ Bytes.decimal n

def options (c : Config) : Engine.Options :=
  { passes := c.subLoop, expandUnary := c.expandUnary, eraseDead := c.eraseDead
    disabled := c.disabledRules }

def policy (c : Config) : Policy :=
  { feature := Policy.defaultFeature, flag := c.sub, passes := c.subLoop
    matchNames := c.matchNames }

/-- The first limit that a configuration breaks. -/
def defect? (c : Config) : Option Defect :=
  match c.options.unknownRule? with
  | some name => some (.unknownRule name)
  | none =>
    if c.workers < 1 then some (.workers c.workers)
    else if c.verifyIters < 0 then some (.verifyIters c.verifyIters)
    else if c.seed < -1 then some (.seed c.seed)
    else none

end Config
end Disguise
