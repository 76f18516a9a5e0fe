import Disguise.CommandLine.Program
import Disguise.Text.Timestamp

/-!
The program on the machine it runs on.
-/
namespace Disguise.Machine

def toName (b : Bytes) : String := (String.fromUTF8? ⟨b.toArray⟩).getD ""

def ofArray (a : ByteArray) : Bytes := a.data.toList

/-- What went wrong with a file. -/
def faultOf : IO.Error → Files.Fault
  | .noFileOrDirectory .. => .absent
  | .alreadyExists .. => .present
  | .inappropriateType _ _ details =>
    if details.toLower = "not a directory" then .notDirectory else .isDirectory
  | e => .other (text (toString e))

/-- An action on files with its failure as a value. -/
def attempt {α : Type} (a : IO α) : IO (Except Files.Fault α) := do
  try pure (.ok (← a)) catch e => pure (.error (faultOf e))

def isDirectory (p : Bytes) : IO Bool := do
  pure ((← ((← IO.currentDir) / toName p).metadata).type == .dir)

/-- The names in a directory that are no directories themselves. -/
def list (p : Bytes) : IO (List Bytes) := do
  let entries ← ((← IO.currentDir) / toName p).readDir
  let files ← entries.filterM fun e => do pure !(← e.path.isDir)
  pure (files.toList.map fun e => text e.fileName)

def create (p data : Bytes) : IO Unit := do
  let h ← IO.FS.Handle.mk (toName p) .writeNew
  h.write ⟨data.toArray⟩

/-- A directory is never replaced by a file. -/
def rename (old new : Bytes) : IO (Except Files.Fault Unit) := do
  match ← attempt (isDirectory new) with
  | .ok true => pure (.error .present)
  | _ => attempt (IO.FS.rename (toName old) (toName new))

def print (s : Stream) (data : Bytes) : IO Unit := do
  let stream ← match s with
    | .output => IO.getStdout
    | .diagnostics => IO.getStderr
  stream.write ⟨data.toArray⟩
  stream.flush

def randomBytes (n : USize) : IO Bytes := do pure (ofArray (← IO.getRandomBytes n))

def randomWord : IO UInt64 := do
  pure ((← randomBytes 8).foldl (fun w b => w * 256 + b.toUInt64) 0)

/-- A random identifier of 128 bits, all but the six that tell its kind drawn at random. -/
def freshId : IO Bytes := do
  let digits := (← randomBytes 16).zipIdx.flatMap fun (b, i) =>
    let b := if i = 6 then b % 16 + 0x40 else if i = 8 then b % 64 + 0x80 else b
    Bytes.hexPadded 2 b.toNat
  let cut (start width : Nat) : Bytes := (digits.drop start).take width
  pure (Bytes.join (text "-") [cut 0 8, cut 8 4, cut 12 4, cut 16 4, cut 20 12])

/-- The time, told by the age of a new file. -/
def seconds : IO Nat := do
  let (_, path) ← IO.FS.createTempFile
  let time := (← path.metadata).modified.sec
  IO.FS.removeFile path
  pure time.toNat

def host : Host IO where
  isDirectory p := attempt (isDirectory p)
  read p := attempt do pure (ofArray (← IO.FS.readBinFile (toName p)))
  list p := attempt (list p)
  write p data := attempt (IO.FS.writeBinFile (toName p) ⟨data.toArray⟩)
  create p data := attempt (create p data)
  makeDirectory p := attempt (IO.FS.createDir (toName p))
  rename := rename
  remove p := discard (attempt (IO.FS.removeFile (toName p)))
  print := print
  stamp := do pure (Timestamp.render (← seconds))
  chance := randomWord
  seeded seed := pure (.seeded seed.toUInt64)
  unseeded := do pure (.seeded (← randomWord))
  freshId := freshId

end Disguise.Machine

def main (args : List String) : IO UInt32 := do
  let code ← Disguise.CommandLine.run Disguise.Machine.host (Disguise.text "obf-subst")
    (args.map Disguise.text)
  pure code.toUInt32
