import Disguise.Config.Basic
import Disguise.Json.Basic

/-!
The fields of a configuration by name. Readers and the writer go through one table, so they agree
on names and kinds.
-/
namespace Disguise.Config

/-- A part of a configuration, by the kind of its value. -/
inductive Slot where
  | flag (get : Config → Bool) (set : Config → Bool → Config)
  | number (get : Config → Int) (set : Config → Int → Config)
  | names (get : Config → List Bytes) (set : Config → List Bytes → Config)

structure Field where
  name : Bytes
  slot : Slot
  /-- Not written when it is false, zero or empty. -/
  optional : Bool := true

def fields : List Field :=
  [{ name := text "sub", optional := false
     slot := .flag sub fun c v => { c with sub := v } },
   { name := text "sub_loop", optional := false
     slot := .number subLoop fun c v => { c with subLoop := v } },
   { name := text "match_names"
     slot := .flag matchNames fun c v => { c with matchNames := v } },
   { name := text "expand_unary"
     slot := .flag expandUnary fun c v => { c with expandUnary := v } },
   { name := text "erase_dead"
     slot := .flag eraseDead fun c v => { c with eraseDead := v } },
   { name := text "disabled_rules"
     slot := .names disabledRules fun c v => { c with disabledRules := v } },
   { name := text "seed", optional := false
     slot := .number seed fun c v => { c with seed := v } },
   { name := text "crypto_rand"
     slot := .flag cryptoRand fun c v => { c with cryptoRand := v } },
   { name := text "workers", optional := false
     slot := .number workers fun c v => { c with workers := v } },
   { name := text "verify_iters"
     slot := .number verifyIters fun c v => { c with verifyIters := v } }]

/-- The value of a slot, and whether it is false, zero or empty. -/
def Slot.json (c : Config) : Slot → Json × Bool
  | .flag get _ => (.bool (get c), !get c)
  | .number get _ => (.int (get c), get c = 0)
  | .names get _ => (.array ((get c).map .string), (get c).isEmpty)

/-- A configuration as an object with its members in the order of the table. -/
def toJson (c : Config) : Json :=
  .object <| fields.filterMap fun f =>
    let (value, blank) := f.slot.json c
    if f.optional && blank then none else some (f.name, value)

end Disguise.Config
