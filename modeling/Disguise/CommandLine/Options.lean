import Disguise.CommandLine.ListOption
import Disguise.Config.Basic
import Disguise.Text.Numeral

/-!
The options of the command line and their grammar: `-name value`, `-name=value`, with one dash or
two. An option that is a switch takes a value only behind an equals sign. Options end at the first
argument that is none, or behind two dashes that stand alone.
-/
namespace Disguise.CommandLine
open Bytes

/-- What the command line asks for. Settings that are not given are left to the configuration. -/
structure Options where
  config : Bytes := []
  sub : Option Bool := none
  subLoop : Option Int := none
  seed : Option Int := none
  crypto : Option Bool := none
  matchNames : Option Bool := none
  expandUnary : Option Bool := none
  eraseDead : Option Bool := none
  jobs : Option Int := none
  verify : Option Int := none
  disable : List Bytes := []
  output : Bytes := []
  diff : Bool := false
  stats : Bool := false
  report : Bytes := []
  metrics : Bytes := []
  length : Int := 30
  tagFirst : Bool := false
  rules : Bool := false
  verbosity : Int := 0
  cpuProfile : Bytes := []
  memProfile : Bytes := []

/-- The kinds of values, each with what a value changes. -/
inductive Setter where
  | switch (set : Options → Bool → Options)
  | number (set : Options → Int → Options)
  | word (set : Options → Bytes → Options)
  | list (get : Options → List Bytes) (set : Options → List Bytes → Options)

structure OptionSpec where
  name : String
  usage : String
  setter : Setter
  /-- The value of an option that is not given, where that is worth a word. -/
  default : String := ""

/-- All options, by name. -/
def specs : List OptionSpec :=
  [{ name := "config", usage := "config file (JSON, or YAML with .yaml extension)"
     setter := .word fun o v => { o with config := v } },
   { name := "cpuprofile", usage := "write CPU profile to this file"
     setter := .word fun o v => { o with cpuProfile := v } },
   { name := "crypto", usage := "use crypto/rand as the random source"
     setter := .switch fun o v => { o with crypto := some v } },
   { name := "diff", usage := "print diff instead of the rewritten module"
     setter := .switch fun o v => { o with diff := v } },
   { name := "disable", usage := "comma-separated list of disabled rules"
     setter := .list (·.disable) fun o v => { o with disable := v } },
   { name := "erase-dead", usage := "remove rewritten ops after each pass"
     setter := .switch fun o v => { o with eraseDead := some v } },
   { name := "expand-unary", usage := "emit not/neg as xor/sub"
     setter := .switch fun o v => { o with expandUnary := some v } },
   { name := "j", usage := "number of files processed in parallel", default := "1"
     setter := .number fun o v => { o with jobs := some v } },
   { name := "len", usage := "number of ops per generated function", default := "30"
     setter := .number fun o v => { o with length := v } },
   { name := "match-names", usage := "honor _sub_/_nosub_ markers in function names"
     setter := .switch fun o v => { o with matchNames := some v } },
   { name := "memprofile", usage := "write memory profile to this file"
     setter := .word fun o v => { o with memProfile := v } },
   { name := "meta", usage := "copy function annotations into metadata"
     setter := .switch fun o v => { o with tagFirst := v } },
   { name := "metrics", usage := "write Prometheus metrics in text format to the file"
     setter := .word fun o v => { o with metrics := v } },
   { name := "o", usage := "output dir (default: stdout)"
     setter := .word fun o v => { o with output := v } },
   { name := "report", usage := "write JSON report to the file"
     setter := .word fun o v => { o with report := v } },
   { name := "rules", usage := "print rewrite rules and exit"
     setter := .switch fun o v => { o with rules := v } },
   { name := "seed", usage := "prng seed (-1 for time based)", default := "-1"
     setter := .number fun o v => { o with seed := some v } },
   { name := "stats", usage := "print substitution statistics"
     setter := .switch fun o v => { o with stats := v } },
   { name := "sub", usage := "rewrite functions without sub/nosub annotations"
     setter := .switch fun o v => { o with sub := some v } },
   { name := "sub_loop", usage := "number of substitution passes", default := "1"
     setter := .number fun o v => { o with subLoop := some v } },
   { name := "verify", usage := "check equivalence of rewritten functions on N random inputs"
     setter := .number fun o v => { o with verify := some v } },
   { name := "vv", usage := "verbosity"
     setter := .number fun o v => { o with verbosity := v } }]

def find? (name : Bytes) : Option OptionSpec := specs.find? fun s => text s.name == name

/-- Why arguments are refused. -/
inductive Fault where
  | badSyntax (arg : Bytes)
  | undefined (name : Bytes)
  | needsArgument (name : Bytes)
  | badSwitch (name value : Bytes)
  | badNumber (name value : Bytes) (cause : Numeral.Fault)
  | badList (name value : Bytes) (cause : ListOption.Fault)
  deriving DecidableEq, Repr

def numberFault : Numeral.Fault → Bytes
  | .malformed => text "parse error"
  | .outOfRange => text "value out of range"

def badValue [Unicode] (name value cause : Bytes) : Bytes :=
  text "invalid value " ++ Quoted.quote value ++ text " for flag -" ++ name ++ text ": " ++ cause

def Fault.message [Unicode] : Fault → Bytes
  | badSyntax arg => text "bad flag syntax: " ++ arg
  | undefined name => text "flag provided but not defined: -" ++ name
  | needsArgument name => text "flag needs an argument: -" ++ name
  | badSwitch name value =>
    text "invalid boolean value " ++ Quoted.quote value ++ text " for -" ++ name ++
      text ": parse error"
  | badNumber name value cause => badValue name value (numberFault cause)
  | badList name value cause => badValue name value cause.message

/-- Arguments that are not taken: a request for help, or a fault. -/
inductive Refusal where
  | help
  | fault (f : Fault)
  deriving DecidableEq, Repr

def switchValue? (value : Bytes) : Option Bool :=
  if ["1", "t", "T", "TRUE", "true", "True"].any fun w => text w == value then some true
  else if ["0", "f", "F", "FALSE", "false", "False"].any fun w => text w == value then some false
  else none

/-- Gives an option a value. -/
def Setter.apply (o : Options) (name value : Bytes) : Setter → Except Fault Options
  | .switch set =>
    match switchValue? value with
    | some b => .ok (set o b)
    | none => .error (.badSwitch name value)
  | .number set =>
    match Numeral.integer value with
    | .ok n => .ok (set o n)
    | .error cause => .error (.badNumber name value cause)
  | .word set => .ok (set o value)
  | .list get set =>
    match ListOption.add (get o) value with
    | (elements, none) => .ok (set o elements)
    | (_, some cause) => .error (.badList name value cause)

def Setter.isSwitch : Setter → Bool
  | .switch _ => true
  | _ => false

def dash : UInt8 := byte '-'
def equals : UInt8 := byte '='

/-- The text of an option behind its dashes; `none` for an argument that is no option. -/
def dashed? : Bytes → Option Bytes
  | a :: b :: rest =>
    if a ≠ dash then none
    else if b = dash then some rest
    else some (b :: rest)
  | _ => none

/-- Name and value of an option; an equals sign cannot come first. -/
def nameAndValue (s : Bytes) : Bytes × Option Bytes :=
  match s with
  | [] => ([], none)
  | first :: rest =>
    let name := first :: rest.takeWhile (· ≠ equals)
    match rest.dropWhile (· ≠ equals) with
    | [] => (name, none)
    | _ :: value => (name, some value)

def isHelp (name : Bytes) : Bool := name = text "help" || name = text "h"

/-- One option, from the text behind its dashes. Tells whether the next argument is its value. -/
def takeOption (o : Options) (arg body : Bytes) (next : Option Bytes) :
    Except Refusal (Options × Bool) :=
  if body.isEmpty || body.head? = some dash || body.head? = some equals then
    .error (.fault (.badSyntax arg))
  else
    let (name, value) := nameAndValue body
    match find? name with
    | none => .error (if isHelp name then .help else .fault (.undefined name))
    | some spec =>
      let given (v : Bytes) (taken : Bool) : Except Refusal (Options × Bool) :=
        ((spec.setter.apply o name v).mapError .fault).map fun o => (o, taken)
      match value with
      | some v => given v false
      | none =>
        if spec.setter.isSwitch then given (text "true") false
        else match next with
          | some v => given v true
          | none => .error (.fault (.needsArgument name))

/-- Takes options off the front of the arguments. -/
def parse (o : Options) : List Bytes → Except Refusal (Options × List Bytes)
  | [] => .ok (o, [])
  | arg :: rest =>
    if arg = [dash, dash] then .ok (o, rest)
    else match dashed? arg with
      | none => .ok (o, arg :: rest)
      | some body =>
        match takeOption o arg body rest.head? with
        | .error r => .error r
        | .ok (o, false) => parse o rest
        | .ok (o, true) => parse o rest.tail
termination_by args => args.length
decreasing_by all_goals simp; try omega

/-- A configuration with the settings of the command line on top. -/
def Options.override (o : Options) (c : Config) : Config :=
  { sub := o.sub.getD c.sub
    subLoop := o.subLoop.getD c.subLoop
    matchNames := o.matchNames.getD c.matchNames
    expandUnary := o.expandUnary.getD c.expandUnary
    eraseDead := o.eraseDead.getD c.eraseDead
    disabledRules := c.disabledRules ++ o.disable
    seed := o.seed.getD c.seed
    cryptoRand := o.crypto.getD c.cryptoRand
    workers := o.jobs.getD c.workers
    verifyIters := o.verify.getD c.verifyIters }

def Setter.typeName : Setter → String
  | .switch _ => ""
  | .number _ => " int"
  | .word _ => " string"
  | .list .. => " value"

/-- How to use the program: all options with what they are for. -/
def usage (program : Bytes) : Bytes :=
  text "Usage of " ++ program ++ text ":\n" ++ specs.flatMap fun s =>
    text "  -" ++ text s.name ++ text s.setter.typeName ++ text "\n    \t" ++ text s.usage ++
      (if s.default = "" then [] else text " (default " ++ text s.default ++ text ")") ++
      text "\n"

end Disguise.CommandLine
