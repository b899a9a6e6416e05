/-
  Scriptlet.Main — the command line.

  The files that the arguments may name are read first, the command is carried out, and what
  it wrote is written. The lines of a session are read one by one.
-/

import Scriptlet.Command

namespace Scriptlet.Main

def fileName (t : Text) : String := t.toString?.getD ""

def textOfBytes (b : ByteArray) : Text := b.data.toList

def look (path : String) : IO (Option FileEntry) := do
  let path := IO.FS.DirEntry.path ⟨".", path⟩
  try
    if ← path.isDir then return some .directory
    return some (.file (textOfBytes (← IO.FS.readBinFile path)))
  catch _ => return none

/-- The paths that a command may follow: its arguments, the values of its flags and the file of
    the settings. -/
def candidates (args : List Text) : List Text :=
  let settings := match Invocation.read args with
    | .ok inv => [inv.settings]
    | .error _ => []
  settings ++ args ++ args.filterMap (fun a => (Text.cut Flag.equals a).2) ++ [Command.imageName]

def addPlace (fs : Files) (p : Place) : IO Files := do
  match fs.entry? p with
  | some _ => return fs
  | none => match ← look (fileName (Files.pathOf p)) with
    | some e => return fs.put p e
    | none => return fs

def addPaths (fs : Files) (paths : List Text) : IO Files := (paths.flatMap Files.placesOn).foldlM addPlace fs

def readFiles (args : List Text) : IO Files := do
  let fs ← addPaths {} (candidates args)
  addPaths fs (Command.historyPath fs args)

def writeFiles (before after : Files) : IO Unit := do
  for (p, e) in after.entries do
    match e with
    | .file content =>
      if before.entry? p != some e then
        IO.FS.writeBinFile (IO.FS.DirEntry.path ⟨".", fileName (Files.pathOf p)⟩) ⟨content.toArray⟩
    | .directory => pure ()

def write (out : IO.FS.Stream) (t : Text) : IO Unit := do
  out.write ⟨t.toArray⟩
  out.flush

/-- The rest of a line, with its newline; nothing at the end of the input. -/
partial def nextLine (input : IO.FS.Stream) (seen : Text) : IO Text := do
  match textOfBytes (← input.read 1) with
  | [] => return seen
  | b :: _ => if b = Console.newline then return seen ++ [b] else nextLine input (seen ++ [b])

/-- Shows what a session has to show, and reads its next line. The lines that it keeps are
    written at once. -/
partial def interact (input out : IO.FS.Stream) (path : Text) (files : Files) (s : Session) : IO UInt32 := do
  write out s.output
  let now := s.saved path files
  writeFiles files now
  let line ← nextLine input []
  let s := { s with output := [] }
  match if line.isEmpty then s.stop else s.type line.chars with
  | (.goes, s) => interact input out path now s
  | ended =>
    let o := Session.outcome path now ended
    write out o.output
    writeFiles now o.files
    return o.exitCode.toUInt32

end Scriptlet.Main

def main (args : List String) : IO UInt32 := do
  let out ← IO.getStdout
  let args := args.map Scriptlet.Text.ofString
  let files ← Scriptlet.Main.readFiles args
  match Scriptlet.Command.start files args with
  | .done o =>
    Scriptlet.Main.write out o.output
    Scriptlet.Main.writeFiles files o.files
    return o.exitCode.toUInt32
  | .session s path now =>
    Scriptlet.Main.writeFiles files now
    Scriptlet.Main.interact (← IO.getStdin) out path now s
