import Disguise.Json.Basic
import Disguise.Metric.Registry
import Disguise.Processing

/-!
What a run tells about itself: a report on its files, and metrics of the substitution engine.
-/
namespace Disguise.CommandLine
open Processing

/-- Counts by code, in the order of the names. -/
def statsJson (s : Stats) : Json :=
  let members := s.entries.map fun e => (e.1.name, Json.int e.2)
  .object (members.mergeSort fun a b => Bytes.le a.1 b.1)

def fileJson (r : Report) : Json :=
  .object <|
    [(text "file", .string r.file), (text "funcs", .int r.funcs),
      (text "ops_before", .int r.opsBefore), (text "ops_after", .int r.opsAfter),
      (text "stats", statsJson r.stats)] ++
    if r.verified = 0 then [] else [(text "verified", .int r.verified)]

/-- The report on a run. -/
def reportJson (id : Bytes) (seed : Int) (reports : List Report) : Json :=
  .object
    [(text "id", .string id), (text "seed", .int seed),
      (text "files", .array (reports.map fileJson)),
      (text "total", statsJson (reports.foldl (fun s r => s + r.stats) {}))]

/-- A metric that is made when the program starts. -/
structure MetricSpec where
  name : Bytes
  desc : Bytes
  settings : List Metric.Setting
  /-- What the metric is given after the engine's work. -/
  samples : Engine.Tally → List Int

def codeSpec (code : Opcode) : MetricSpec :=
  { name := code.name ++ text " substituted"
    desc := text "Number of rewritten " ++ code.name ++ text " ops"
    settings := [.level 1, .exported (text "obf_subst_" ++ code.name ++ text "_total")]
    samples := fun t => [(t.stats.count code : Int)] }

def metricSpecs : List MetricSpec :=
  Rule.replaceable.map codeSpec ++
    [{ name := text "ops per rewrite"
       desc := text "Number of ops generated by a single rule application"
       settings := [.distribution]
       samples := fun t => t.lengths.map Int.ofNat },
     { name := text "dead ops erased"
       desc := text "Number of rewritten ops removed after a pass"
       settings := [.exported (text "obf_subst_erased_total")]
       samples := fun t => [(t.erased : Int)] }]

/-- The metrics after the engine's work. -/
def metricsOf (t : Engine.Tally) : Except Violation Registry :=
  metricSpecs.foldlM (fun r spec => do
    let (r, id) ← r.make spec.name spec.desc spec.settings
    (spec.samples t).foldlM (fun r n => r.add id n) r) {}

/-- A line for each metric. -/
def statsText [Digest] (r : Registry) : Bytes :=
  (r.collect 0).flatMap fun m =>
    Bytes.padRight 30 (m.name ++ text ":") ++ text " " ++ m.render ++ text "\n"

/-- A line for each rule. -/
def rulesText : Bytes :=
  Rule.catalog.flatMap fun r =>
    Bytes.padRight 20 r.name ++ text " " ++ r.code.name ++ text "\n"

end Disguise.CommandLine
