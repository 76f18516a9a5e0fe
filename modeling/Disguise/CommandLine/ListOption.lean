import Disguise.Text.Blank
import Disguise.Text.Quoted

/-!
An option whose value is a list. It may be given several times; every value adds its
comma-separated elements.
-/
namespace Disguise.ListOption

inductive Fault where
  | emptyList
  | emptyElement (value : Bytes)
  deriving DecidableEq, Repr

def Fault.message [Unicode] : Fault → Bytes
  | emptyList => text "empty list"
  | emptyElement value => text "empty element in " ++ Quoted.quote value

def separator : UInt8 := Bytes.byte ','

def render (elements : List Bytes) : Bytes := Bytes.join [separator] elements

/-- The list after one more value. The elements before a faulty one are added all the same. -/
def add (elements : List Bytes) (value : Bytes) : List Bytes × Option Fault :=
  if (Blank.trim value).isEmpty then (elements, some .emptyList)
  else
    let new := (value.split separator).map Blank.trim
    (elements ++ new.takeWhile (!·.isEmpty),
      if new.any (·.isEmpty) then some (.emptyElement value) else none)

end Disguise.ListOption
