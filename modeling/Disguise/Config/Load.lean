import Disguise.Config.JsonReader
import Disguise.Files.Path

/-!
Configurations from files. The extension of a file tells its format, and a configuration that
breaks a limit is refused.
-/
namespace Disguise

/-- The library that reads a YAML text into the fields of the default configuration. -/
class YamlReader where
  config? : Bytes → Option Config

namespace Config

/-- Why no configuration could be loaded. -/
inductive LoadFault where
  | json (f : ReadFault)
  | yaml
  | defect (d : Defect)
  deriving DecidableEq, Repr

/-- What is wrong with the text of a configuration. -/
def ReadFault.message [Unicode] : ReadFault → Bytes
  | malformed => text "json: malformed text"
  | wrongType => text "json: value of a wrong type"
  | unknownField name => text "json: unknown field " ++ Quoted.quote name

def LoadFault.message [Unicode] : LoadFault → Bytes
  | json f => text "failed to parse config file: " ++ f.message
  | yaml => text "failed to parse config file: yaml: malformed text"
  | defect d => d.message

def complete (c : Config) : Except LoadFault Config :=
  match c.defect? with
  | some d => .error (.defect d)
  | none => .ok c

def loadJson (s : Bytes) : Except LoadFault Config := do
  complete (← (ofJsonText s).mapError .json)

def loadYaml [YamlReader] (s : Bytes) : Except LoadFault Config :=
  match YamlReader.config? s with
  | some c => complete c
  | none => .error .yaml

def isYaml (file : Bytes) : Bool :=
  Path.extension file = text ".yaml" || Path.extension file = text ".yml"

/-- The configuration in a file of the given name. -/
def loadAs [YamlReader] (file s : Bytes) : Except LoadFault Config :=
  if isYaml file then loadYaml s else loadJson s

end Config
end Disguise
