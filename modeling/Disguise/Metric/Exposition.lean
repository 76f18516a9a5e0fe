import Disguise.Metric.Registry

/-!
Gauges as text, by name: a help line, a type line and the value of each. The first gauge keeps a
name.
-/
namespace Disguise.Gauge

/-- The first gauge of each name, by name. -/
def kept (gauges : List Gauge) : List Gauge :=
  let first := gauges.foldl
    (fun done g => if done.any (·.name == g.name) then done else done ++ [g]) []
  first.mergeSort fun a b => Bytes.le a.name b.name

def render (g : Gauge) : Bytes :=
  text "# HELP " ++ g.name ++ text " " ++ g.help ++ text "\n# TYPE " ++ g.name ++
    text " gauge\n" ++ g.name ++ text " " ++ Decimal.general g.value ++ text "\n"

instance : Exposition where
  page gauges := .ok ((kept gauges).flatMap render)

end Disguise.Gauge
