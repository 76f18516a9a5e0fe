import Disguise.CommandLine.Options
import Disguise.CommandLine.Report
import Disguise.Config.Load
import Disguise.Config.YamlReader
import Disguise.Diff.Lines
import Disguise.Files.Host
import Disguise.Generation
import Disguise.Ieee
import Disguise.Metric.Exposition
import Disguise.Metric.Histogram
import Disguise.Syntax.Parser
import Disguise.Text.Printable

/-!
The program: read modules, transform them, write what came out. It talks to its surroundings
through a `Host`; the log is kept on the side, and a failure shows what was logged lately.
-/
namespace Disguise.CommandLine
open Bytes

/-- Steps of the program. They end early with an exit code. -/
abbrev Program (m : Type → Type) := ExceptT Nat (StateT Log.State m)

variable [FloatUnit] [Unicode] [Differ] [YamlReader] [Digest] [Exposition]
variable {m : Type → Type} [Monad m] (host : Host m)

/-- An action of the surroundings as a step. -/
def act {α : Type} (a : m α) : Program m α := ExceptT.lift (StateT.lift a)

/-- Ends the program with a message. -/
def fail {α : Type} (msg : Bytes) : Program m α := do
  act (host.print .diagnostics ((← get).failure msg))
  throw 1

/-- Such as `open a.ir: no such file or directory`. -/
def fileFault (action : String) (path : Bytes) (f : Files.Fault) : Bytes :=
  text action ++ text " " ++ path ++ text ": " ++ f.message

/-- Keeps an entry in the history and shows it if it is wanted. -/
def logEntry (e : Log.Entry) : Program m Unit := do
  let line := (← act host.stamp) ++ e.line
  modify fun s => s.record { e with line }
  if (← get).shows e.level then act (host.print .diagnostics (line ++ [newline]))

/-- All but the last component of a path, without the slash behind it. -/
def above (path : Bytes) : Bytes :=
  ((path.dropRightWhile (· = Path.slash)).dropRightWhile (· ≠ Path.slash)).dropLast

/-- Makes a directory and those above it that are not there yet. -/
def makeDirectories : (fuel : Nat) → Bytes → m (Except Bytes Unit)
  | 0, _ => pure (.ok ())
  | fuel + 1, path => do
    match ← host.isDirectory path with
    | .ok true => pure (.ok ())
    | .ok false => pure (.error (fileFault "mkdir" path .notDirectory))
    | .error _ =>
      let parent := above path
      let made ← if parent.isEmpty then pure (.ok ()) else makeDirectories fuel parent
      match made with
      | .error msg => pure (.error msg)
      | .ok () =>
        match ← host.makeDirectory path with
        | .ok () => pure (.ok ())
        | .error f =>
          match ← host.isDirectory path with
          | .ok true => pure (.ok ())
          | _ => pure (.error (fileFault "mkdir" path f))

/-- The ending of a name that a file has while it is written; a number follows. -/
def temporarySuffix : Bytes := text ".tmp"

/-- How the names start that a file may have while it is written. -/
def temporaryStart (path : Bytes) : Bytes :=
  let dir := Path.dir path
  (if dir.getLast? = some Path.slash then dir else dir ++ [Path.slash]) ++ Path.base path ++
    temporarySuffix

/-- A name that a file may have while it is written. -/
def temporary (path : Bytes) (number : UInt32) : Bytes :=
  temporaryStart path ++ decimalNat number.toNat

/-- How many names are tried for a file that is written. -/
def maxTries : Nat := 10000

/-- Makes a new file next to the one that is written, and gives its name. -/
def createTemporary (path data : Bytes) : (tries : Nat) → m (Except Bytes Bytes)
  | 0 => pure (.error (fileFault "createtemp" (temporaryStart path ++ text "*") .present))
  | tries + 1 => do
    let tmp := temporary path (← host.chance).toUInt32
    match ← host.create tmp data with
    | .ok () => pure (.ok tmp)
    | .error .present => createTemporary path data tries
    | .error f => pure (.error (fileFault "open" tmp f))

/-- Writes a file under another name and moves it to its place when it is complete. -/
def replaceFile (path data : Bytes) : m (Except Bytes Unit) := do
  let base := Path.base path
  if base.contains Path.slash then
    pure (.error (text "failed to create temp file: createtemp " ++ base ++ temporarySuffix ++
      text "*: pattern contains path separator"))
  else
    match ← createTemporary host path data maxTries with
    | .error msg => pure (.error (text "failed to create temp file: " ++ msg))
    | .ok tmp =>
      match ← host.rename tmp path with
      | .ok () => pure (.ok ())
      | .error f =>
        host.remove tmp
        pure (.error (fileFault "rename" (tmp ++ text " " ++ path) f))

/-- Ends the program if a step gave a message. -/
def orFail {α : Type} (a : m (Except Bytes α)) : Program m α := do
  match ← act a with
  | .ok v => pure v
  | .error msg => fail host msg

/-- The ending of files that hold modules. -/
def moduleSuffix : Bytes := text ".ir"

/-- A path to a file stands for itself, and one to a directory for the modules in it. -/
def expand (path : Bytes) : m (Except Bytes (List Bytes)) := do
  match ← host.isDirectory path with
  | .error f => pure (.error (fileFault "stat" path f))
  | .ok false => pure (.ok [path])
  | .ok true =>
    match ← host.list path with
    | .error f => pure (.error (fileFault "open" path f))
    | .ok names =>
      let modules := names.filter moduleSuffix.isSuffixOf
      pure (.ok (Bytes.sort (modules.map (Path.join path))))

def expandAll : List Bytes → m (Except Bytes (List Bytes))
  | [] => pure (.ok [])
  | path :: rest => do
    match ← expand host path with
    | .error msg => pure (.error msg)
    | .ok files =>
      match ← expandAll rest with
      | .error msg => pure (.error msg)
      | .ok more => pure (.ok (files ++ more))

/-- The content of a file, or what to say of it. -/
def readFile (path : Bytes) : m (Except Bytes Bytes) := do
  match ← host.read path with
  | .ok data => pure (.ok data)
  | .error f =>
    let action := if f = .isDirectory then "read" else "open"
    pure (.error (fileFault action path f))

def loadConfig (o : Options) : m (Except Bytes Config) := do
  if o.config.isEmpty then pure (finish {})
  else match ← readFile host o.config with
    | .error msg => pure (.error (text "failed to read config file: " ++ msg))
    | .ok data =>
      match Config.loadAs o.config data with
      | .error f => pure (.error f.message)
      | .ok c => pure (finish c)
where
  finish (c : Config) : Except Bytes Config :=
    (Config.complete (o.override c)).mapError (·.message)

/-- The random source for the file at a position. -/
def sourceFor (c : Config) (i : Nat) : m Source := do
  if c.cryptoRand then host.unseeded else host.seeded (Int64.ofInt (c.seed + i))

/-- What is known after working on some files. -/
structure Batch where
  results : List Processing.Result := []
  tally : Engine.Tally := {}
  /-- The first failure. -/
  failure : Option Bytes := none

def Batch.fail (b : Batch) (msg : Bytes) : Batch := { b with failure := b.failure.or (some msg) }

/-- A module that was read or made, or what to say of it. -/
def input (o : Options) (file : Option Bytes) : m (Except Bytes (Choice (Graph × ModuleId))) := do
  match file with
  | none => pure (.ok (Generation.module {} o.length))
  | some path =>
    match ← readFile host path with
    | .error msg => pure (.error msg)
    | .ok data =>
      match Syntax.parse data with
      | .ok r => pure (.ok (pure r))
      | .error e => pure (.error (path ++ text ": " ++ e.message))

/-- Works on one file; a failure does not keep the others from being worked on. -/
def addFile (s : Processing.Settings) (o : Options) (b : Batch) (file : Option Bytes) (i : Nat) :
    Program m Batch := do
  let source ← act (sourceFor host s.config i)
  match ← act (input host o file) with
  | .error msg => pure (b.fail msg)
  | .ok module =>
    let name := file.getD (text "generated.ir")
    let all : Choice _ := do
      let (g, id) ← module
      Processing.process s g id name
    match (all.run { source }).1 with
    | .error v => fail host (text "panic: " ++ v.message.getD (text "internal error"))
    | .ok (result, record) =>
      record.log.forM (logEntry host)
      let b := { b with tally := b.tally ++ record.tally }
      match result with
      | .ok r => pure { b with results := b.results ++ [r] }
      | .error f => pure (b.fail (name ++ text ": " ++ f.message))

/-- Works on files in order. Without files one module is generated. -/
def work (s : Processing.Settings) (o : Options) (files : List Bytes) : Program m Batch := do
  let inputs := if files.isEmpty then [none] else files.map some
  inputs.zipIdx.foldlM (fun b (file, i) => addFile host s o b file i) {}

/-- Where the result for a file goes. -/
def outputPath (dir file : Bytes) : Bytes := Path.join dir (Path.base file)

/-- Writes results into files or prints them, and prints differences. -/
def writeResults (o : Options) : List Processing.Result → m (Except Bytes Unit)
  | [] => pure (.ok ())
  | r :: rest => do
    let written ← if o.output.isEmpty then pure (.ok ())
      else replaceFile host (outputPath o.output r.report.file) r.output
    match written with
    | .error msg => pure (.error msg)
    | .ok () =>
      if o.diff then host.print .output (text "--- " ++ r.report.file ++ text "\n" ++ r.diff)
      else if o.output.isEmpty then host.print .output r.output
      writeResults o rest

def writeAll (o : Options) (results : List Processing.Result) : m (Except Bytes Unit) := do
  let made ← if o.output.isEmpty then pure (.ok ())
    else makeDirectories host (o.output.length + 1) o.output
  match made with
  | .error msg => pure (.error msg)
  | .ok () => writeResults host o results

/-- Writes the page with the metrics into a file. -/
def writeMetrics (path : Bytes) (registry : Registry) : m (Except Bytes Unit) := do
  match registry.exportText with
  | .error msg => pure (.error msg)
  | .ok page => replaceFile host path page

/-- Shows and writes what the run tells about itself. -/
def writeReports (o : Options) (seed : Int) (b : Batch) : Program m Unit := do
  match metricsOf b.tally with
  | .error _ => pure ()
  | .ok registry =>
    if o.stats then act (host.print .diagnostics (statsText registry))
    if !o.metrics.isEmpty then orFail host (writeMetrics host o.metrics registry)
  if !o.report.isEmpty then
    let id ← act host.freshId
    let json := reportJson id seed (b.results.map (·.report))
    orFail host (replaceFile host o.report json.render)

/-- Profiles are not taken; a file that was asked for says so. -/
def profile : Bytes := text "no samples\n"

def writeProfile (kind : String) (path data : Bytes) : Program m Unit := do
  if !path.isEmpty then
    match ← act (host.write path data) with
    | .ok () => pure ()
    | .error f =>
      fail host (text "failed to create " ++ text kind ++ text " profile: " ++
        fileFault "open" path f)

/-- Writes a profile into the file that was made for it, unless something else was put there. -/
def finishProfile (kind : String) (path : Bytes) : Program m Unit := do
  match ← act (host.read path) with
  | .ok [] => writeProfile host kind path profile
  | _ => pure ()

/-- The history that is kept for failures. -/
def startLog : Program m Unit := do
  match (← get).keep 200 65536 with
  | .ok s => set s
  | .error _ => pure ()

/-- The work between the two ends of the program. -/
def body (o : Options) (args : List Bytes) : Program m Unit := do
  if o.rules then act (host.print .output rulesText)
  else
    let c ← orFail host (loadConfig host o)
    let seed ← if c.seed = -1 && !c.cryptoRand then
        pure ((← act host.chance).toNat / 2 : Int) else pure c.seed
    let c := { c with seed }
    logEntry host ⟨0, text "seed=" ++ decimal c.seed⟩
    let files ← orFail host (expandAll host args)
    let b ← work host { config := c, tagFirst := o.tagFirst, wantDiff := o.diff } o files
    match b.failure with
    | some msg => fail host msg
    | none =>
      orFail host (writeAll host o b.results)
      writeReports host o c.seed b

/-- All that follows once the options are known. -/
def perform (o : Options) (args : List Bytes) : Program m Unit := do
  startLog
  writeProfile host "cpu" o.cpuProfile []
  body host o args
  finishProfile host "cpu" o.cpuProfile
  writeProfile host "memory" o.memProfile profile

/-- Runs the program and gives its exit code. -/
def run (program : Bytes) (args : List Bytes) : m Nat := do
  match parse {} args with
  | .error .help =>
    host.print .diagnostics (usage program)
    pure 0
  | .error (.fault f) =>
    host.print .diagnostics (f.message ++ [newline] ++ usage program)
    pure 2
  | .ok (o, rest) =>
    let (result, _) ← StateT.run (ExceptT.run (perform host o rest)) { verbosity := o.verbosity }
    match result with
    | .ok () => pure 0
    | .error code => pure code

end Disguise.CommandLine
