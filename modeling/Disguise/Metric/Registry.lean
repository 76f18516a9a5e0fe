import Disguise.Decimal
import Disguise.Violation

/-!
Named metrics. A metric counts, keeps a distribution of samples, or shows a value from elsewhere.
A name stands for the latest metric that was made under it; older ones can still be added to.
-/
namespace Disguise

/-- The library that sums up a distribution from all samples, in the order in which they came. It is
never asked about none. -/
class Digest where
  mean : Array Float → Float
  quantile : Array Float → Float → Float

/-- A choice made when a metric is made. -/
inductive Metric.Setting where
  | level (n : Int)
  | distribution
  | external (value : Int)
  | exported (name : Bytes)
  | unknown (n : Int)

structure Metric where
  name : Bytes
  desc : Bytes
  level : Int := 0
  distribution : Bool := false
  external : Option Int := none
  exportNames : List Bytes := []
  total : UInt64 := 0
  samples : Array Float := #[]

namespace Metric

def set (m : Metric) : Setting → Except Violation Metric
  | .level n => .ok { m with level := n }
  | .distribution => .ok { m with distribution := true }
  | .external value => .ok { m with external := some value }
  | .exported name => .ok { m with exportNames := m.exportNames ++ [name] }
  | .unknown n => .error (.unknownMetricOption n)

/-- A number as a signed word. -/
def float (n : Int) : Float := (Int64.ofInt n).toFloat

def add (m : Metric) (n : Int) : Except Violation Metric :=
  if m.external.isSome then .error (.externalMetric m.name)
  else if m.distribution then .ok { m with samples := m.samples.push (float n) }
  else .ok { m with total := m.total + (Int64.ofInt n).toUInt64 }

variable [Digest]

/-- The total as a signed word, the mean of a distribution, or the value from elsewhere. -/
def value (m : Metric) : Int :=
  match m.external with
  | some v => v
  | none =>
    if !m.distribution then m.total.toInt64.toInt
    else if m.samples.isEmpty then 0
    else Decimal.cut (Digest.mean m.samples)

def quantile (m : Metric) (q : Float) : Except Violation Float :=
  if !m.distribution then .error (.notDistribution m.name)
  else if m.samples.isEmpty then .ok 0
  else .ok (Digest.quantile m.samples q)

def render (m : Metric) : Bytes :=
  if !m.distribution then Bytes.decimal m.value
  else if m.samples.isEmpty then text "-"
  else
    text "mean " ++ Bytes.decimal m.value ++ text ", p50 " ++
      Decimal.whole (Digest.quantile m.samples 0.5) ++ text ", p90 " ++
      Decimal.whole (Digest.quantile m.samples 0.9) ++ text " (" ++
      Bytes.decimalNat m.samples.size ++ text " samples)"

end Metric

/-- What is shown to a monitoring system under a name. -/
structure Gauge where
  name : Bytes
  help : Bytes
  value : Float

/-- The client of a monitoring system, which puts the gauges that were registered with it on a page.
What it does with a name that was taken before is up to it. -/
class Exposition where
  page : List Gauge → Except Bytes Bytes

/-- Metrics in the order in which they were made. -/
structure Registry where
  metrics : List Metric := []

/-- The place of a metric in the order in which they were made. -/
structure MetricId where
  idx : Nat
  deriving DecidableEq, Repr

namespace Registry

def make (r : Registry) (name desc : Bytes) (settings : List Metric.Setting) :
    Except Violation (Registry × MetricId) := do
  let m ← settings.foldlM Metric.set { name, desc }
  pure (⟨r.metrics ++ [m]⟩, ⟨r.metrics.length⟩)

def get? (r : Registry) (id : MetricId) : Option Metric := r.metrics[id.idx]?

/-- The latest metric of a name. -/
def find? (r : Registry) (name : Bytes) : Option MetricId :=
  (r.metrics.zipIdx.reverse.find? (·.1.name == name)).map fun e => ⟨e.2⟩

def add (r : Registry) (id : MetricId) (n : Int) : Except Violation Registry := do
  match r.get? id with
  | none => .error .absent
  | some m => pure ⟨r.metrics.set id.idx (← m.add n)⟩

/-- The metrics that names stand for. -/
def latest : List Metric → List Metric
  | [] => []
  | m :: rest => if rest.any (·.name == m.name) then latest rest else m :: latest rest

/-- The metrics of a level or a higher one, higher levels first and older metrics first. -/
def collect (r : Registry) (level : Int) : List Metric :=
  ((latest r.metrics).filter (level ≤ ·.level)).mergeSort fun a b => b.level ≤ a.level

/-- The gauges that are exported, in the order in which they were registered. -/
def gauges [Digest] (r : Registry) : List Gauge :=
  r.metrics.flatMap fun m => m.exportNames.map fun name => ⟨name, m.desc, Metric.float m.value⟩

/-- The page with all that is exported. -/
def exportText [Digest] [Exposition] (r : Registry) : Except Bytes Bytes :=
  Exposition.page r.gauges

end Registry
end Disguise
