import Disguise.Config.Field
import Disguise.Config.Load
import Disguise.Decimal
import Disguise.Yaml.Meaning

/-!
Configurations from YAML. Keys are the names of fields, each at most once. A merge key takes over
the pairs of other mappings whose names do not stand beside it. Every node that is read counts, and
a text that lets aliases multiply its nodes too much is refused.
-/
namespace Disguise.Config
open Yaml

/-- How many nodes have been read, and how many of them behind an alias. -/
structure Reads where
  all : Nat := 0
  aliased : Nat := 0
  deriving DecidableEq, Repr

/-- Whether most nodes stand behind aliases: more than 99 in 100 up to a first limit and more than
10 in 100 from a second one on, with a straight line between the two. -/
def Reads.excessive (r : Reads) : Bool :=
  let first := 400000
  let second := 4000000
  let span := second - first
  100 < r.aliased && 1000 < r.all &&
    (if r.all ≤ first then 99 * r.all < 100 * r.aliased
     else if second ≤ r.all then 10 * r.all < 100 * r.aliased
     else (99 * span - 89 * (r.all - first)) * r.all < 100 * span * r.aliased)

abbrev Read := StateT Reads Option

/-- Counts a node; `deep` if it stands behind an alias. -/
def Read.count (deep : Bool) : Read PUnit := do
  let r ← get
  let r : Reads := { all := r.all + 1, aliased := if deep then r.aliased + 1 else r.aliased }
  if r.excessive then failure
  set r

/-- Goes to a node: the one that an alias stands for, and whether there was an alias on the way. A
node cannot hold itself. -/
def Read.enter (deep : Bool) (n : Node) : Read (Node × Bool) := do
  count deep
  match n with
  | .alias _ (some target) =>
    count true
    pure (target, true)
  | .alias _ none => failure
  | n => pure (n, deep)

def Read.scalar (deep : Bool) (n : Node) : Read Scalar := do
  match ← enter deep n with
  | (.scalar s, _) => pure s
  | _ => failure

/-- A text; `none` for a null. -/
def Read.name? (deep : Bool) (n : Node) : Read (Option Bytes) := do
  liftM (← scalar deep n).string?

/-- A flag may also be a word of an older custom, even a quoted one. -/
def flagOf? : Meaning → Option Bool
  | .bool b => some b
  | .text s =>
    if spelled ["y", "Y", "yes", "Yes", "YES", "on", "On", "ON"] s then some true
    else if spelled ["n", "N", "no", "No", "NO", "off", "Off", "OFF"] s then some false
    else none
  | _ => none

/-- A number with a fraction is cut. -/
def numberOf? : Meaning → Option Int
  | .int n => some n
  | .float x => if x ≤ 0x8000000000000000 then some (Decimal.cut x) else none
  | _ => none

/-- Takes over a scalar; null leaves things as they are. -/
def assign {α : Type} (c : Config) (value? : Meaning → Option α) (set : Config → α → Config) :
    Meaning → Option Config
  | .null => some c
  | m => (value? m).map (set c)

/-- Puts a value into a slot. Null empties a list, and a null in a list is left out. -/
def Slot.readYaml (c : Config) (deep : Bool) (n : Node) : Slot → Read Config
  | .flag _ set => do liftM ((← Read.scalar deep n).meaning?.bind (assign c flagOf? set))
  | .number _ set => do liftM ((← Read.scalar deep n).meaning?.bind (assign c numberOf? set))
  | .names _ set => do
    match ← Read.enter deep n with
    | (.sequence items, deep) =>
      let names ← items.mapM (Read.name? deep)
      pure (set c (names.filterMap id))
    | (.scalar s, _) => if (← liftM s.string?).isNone then pure (set c []) else failure
    | _ => failure

def isMergeKey : Node → Bool
  | .scalar s => s.isMerge
  | _ => false

/-- The names that are taken, where there may be any. A name is given away once. -/
def takeName (name : Bytes) : Option (List Bytes) → Option (Option (List Bytes))
  | none => some none
  | some taken => if taken.contains name then none else some (some (name :: taken))

/-- Takes over pairs, apart from a merge key, one whose key is null and those whose names are taken.
No name in `done` may come again. -/
def readPairs (deep : Bool) (c : Config) (taken : Option (List Bytes)) (done : List Bytes) :
    List (Node × Node) → Read (Config × Option (List Bytes))
  | [] => pure (c, taken)
  | (key, value) :: rest => do
    if isMergeKey key then readPairs deep c taken done rest
    else match ← Read.name? deep key with
      | none => readPairs deep c taken done rest
      | some name =>
        match takeName name taken with
        | none => readPairs deep c taken done rest
        | some taken =>
          let f ← liftM (fields.find? (·.name == name))
          if done.contains name then failure
          readPairs deep (← f.slot.readYaml c deep value) taken (name :: done) rest

/-- The mappings behind a merge key. -/
def sources : Node → List Node
  | .sequence items => items
  | n => [n]

/-- Takes over a mapping. Within a merge there are names that are taken already; the names of the
mapping are then taken too. -/
def readMapping (deep : Bool) (taken : Option (List Bytes)) (pairs : List (Node × Node))
    (c : Config) : (fuel : Nat) → Read (Config × Option (List Bytes))
  | 0 => failure
  | fuel + 1 => do
    if !(pairs.map (·.1.label)).Nodup then failure
    let (c, taken) ← readPairs deep c taken [] pairs
    match pairs.find? (isMergeKey ·.1) with
    | none => pure (c, taken)
    | some (_, source) =>
      let names ← match taken with
        | some names => pure names
        | none => pure ((← pairs.mapM (Read.name? deep ·.1)).filterMap id)
      let (c, names) ← (sources source).foldlM (fun (c, names) n => do
        match ← Read.enter deep n with
        | (.mapping pairs, deep) =>
          let (c, names') ← readMapping deep (some names) pairs c fuel
          pure (c, names'.getD names)
        | _ => failure) (c, names)
      pure (c, taken.map fun _ => names)

/-- The configuration of a YAML text; the default one if there is no document in it. -/
def ofYamlText? (s : Bytes) : Option Config := do
  match ← document? s with
  | none => pure {}
  | some root =>
    let read : Read Config := do
      Read.count false
      match ← Read.enter false root with
      | (.mapping pairs, deep) => pure (← readMapping deep none pairs {} (s.length + 2)).1
      | (.scalar s, _) => if (← liftM s.string?).isNone then pure {} else failure
      | _ => failure
    (read.run {}).map (·.1)

instance : YamlReader where
  config? := ofYamlText?

end Disguise.Config
