/-
  Scriptlet.Command — the commands of the command line.

  A command sees files, writes files and shows text. It ends with an exit code, or it starts
  a session that goes on with the lines of the user.
-/

import Scriptlet.Flags
import Scriptlet.Image.Cbor
import Scriptlet.Session
import Scriptlet.Settings

namespace Scriptlet

inductive Failure where
  | flags (e : FlagError)
  | notOneProgram
  | notOneImage
  | file (e : FileError)
  | parse (e : SyntaxError)
  | lower (e : LowerError)
  | image (e : ImageError)
  | run (e : RunError)

namespace Failure

def message : Failure → Text
  | .flags e => e.message
  | .notOneProgram => "expected exactly one program argument"
  | .notOneImage => "expected exactly one image file"
  | .file e => e.message
  | .parse e => e.message
  | .lower e => e.message
  | .image e => e.message
  | .run e => e.message

def isRuntime : Failure → Bool
  | .run (.machine e) =>
    match e.halt? with
    | some (.noBlock _) | none => false
    | some _ => true
  | _ => false

def exitCode (f : Failure) : Nat := if f.isRuntime then 3 else 2

end Failure

structure World where
  files : Files
  output : Text := []

structure Invocation where
  settings : Text
  verbose : Bool
  args : List Text
  deriving Repr

namespace Invocation

def settingsName : Text := "donitsi.toml"

def flags : List Flag := [⟨"config", false⟩, ⟨"trace", false⟩, ⟨"v", true⟩]

def read (args : List Text) : Except FlagError Invocation := do
  let (vs, rest) ← Flag.parse flags args
  return {
    settings := (Flag.value? vs "config").getD settingsName
    verbose := Text.trueWords.contains ((Flag.value? vs "v").getD [])
    args := rest }

end Invocation

abbrev Command := ExceptT Failure (StateM World)

namespace Command

def print (t : Text) : Command Unit := modify fun w => { w with output := w.output ++ t }

def liftExcept {ε α : Type} (f : ε → Failure) (r : Except ε α) : Command α := ExceptT.mk (pure (r.mapError f))

def options (s : Settings) : Machine.Options := { s.machineOptions with hostNames := Console.functions }

def execute (verbose : Bool) (m : Machine) : Command Unit := do
  let w ← get
  let (e, _, output) := m.run (Console.handler verbose) false w.output
  set { w with output := output }
  match e with
  | some e => throw (.run e)
  | none => return ()

def source (args : List Text) : Command Source := do
  match args with
  | [arg] => return (← get).files.source arg
  | _ => throw .notOneProgram

def parse (t : Text) : Command (List Node) := liftExcept .parse (Parse.source t)

def compile (program : List Node) : Command (Nat × Program) :=
  match ({} : Program).compile program with
  | (.ok id, p) => return (id, p)
  | (.error e, _) => throw (.lower e)

def run (s : Settings) (verbose : Bool) (args : List Text) : Command Unit := do
  let src ← source args
  match (Machine.new (options s)).load src.name src.text with
  | (.error e, _) => throw (.run (.machine e))
  | (.ok _, m) => execute verbose m

def blockListing (id : Nat) (b : Block) : Text :=
  Console.note ("block #" ++ Text.ofNat id ++ "  " ++ b.fingerprint) ++ Text.unlines b.listing

def constListing (id : Nat) (v : Value) : Text :=
  Console.line ("const " ++ Text.padLeft 3 ' ' (Text.ofNat id) ++ "  " ++ v.text)

def numbered {α : Type} (f : Nat → α → Text) (l : List α) : Text := (l.zipIdx.map fun (a, n) => f n a).flatten

def dumpProgram (program : List Node) : Command Unit := do
  let (_, p) ← compile program
  print (numbered blockListing (p.slots.map fun s => s.code.getD []))
  print (numbered constListing p.consts)

def dump (args : List Text) : Command Unit := do
  dumpProgram (← parse (← source args).text)

def ast (args : List Text) : Command Unit := do
  let src ← source args
  let program ← parse src.text
  print (Console.note src.name ++ Node.tree program)
  dumpProgram program

def imageName : Text := "out.dni"

def build (args : List Text) : Command Unit := do
  let (vs, rest) ← liftExcept .flags (Flag.parse [⟨"o", false⟩] args)
  let path := (Flag.value? vs "o").getD imageName
  let (id, p) ← compile (← parse (← source rest).text)
  let data := (← liftExcept .image (Image.ofProgram p id)).encode
  let files ← liftExcept .file ((← get).files.write path data)
  modify fun w => { w with files := files }
  print (Console.note ("wrote " ++ path ++ " (" ++ Text.ofNat data.length ++ " bytes, " ++ Text.ofNat p.slots.length
    ++ " blocks)"))

def exec (s : Settings) (verbose : Bool) (args : List Text) : Command Unit := do
  match args with
  | [path] =>
    let data ← liftExcept .file ((← get).files.read path)
    let image ← liftExcept .image (Image.decode data)
    execute verbose (← liftExcept .image (Machine.ofImage image (options s)))
  | _ => throw .notOneImage

end Command

/-- The history that lines are kept in, and the files with it. A file for it is made if there is
    none, but one that cannot be made is left out. -/
def History.start (path : Text) (files : Files) : History × Files :=
  match files.find path with
  | .ok (.file p content) =>
    let h := History.ofFile content
    (h, files.put p (.file (h.file.getD content)))
  | .ok (.nothing p) => (.ofFile [], files.put p (.file []))
  | _ => ({}, files)

def Settings.historyPath (s : Settings) : Text := s.text "repl.history"

/-- A session, before the first line is typed. A file named by the first argument is run first;
    one that cannot be read is left out. -/
def Session.start (s : Settings) (verbose : Bool) (history : History) (files : Files) (args : List Text) : Session :=
  let session : Session := { machine := .new (Command.options s), editor := { history := history }, verbose := verbose }
  match args with
  | [] => session.welcome
  | path :: _ => match files.read path with
    | .ok content => session.welcome.ofFile content
    | .error _ => session.welcome

def Session.saved (s : Session) (path : Text) (files : Files) : Files :=
  match s.editor.history.file with
  | some content => (files.write path content).toOption.getD files
  | none => files

structure Outcome where
  exitCode : Nat
  output : Text := []
  files : Files

inductive Progress where
  | done (o : Outcome)
  /-- A session that keeps its lines in the file at a path. -/
  | session (s : Session) (path : Text) (files : Files)

def Session.outcome (path : Text) (files : Files) : Session.Going × Session → Outcome
  | (.broken, s) => ⟨2, s.output, s.saved path files⟩
  | (_, s) => ⟨0, s.farewell.output, s.saved path files⟩

namespace Command

def finish (files : Files) (c : Command Unit) : Progress :=
  match (ExceptT.run c).run { files := files } with
  | (.ok _, w) => .done ⟨0, w.output, w.files⟩
  | (.error f, w) => .done ⟨f.exitCode, w.output ++ Console.error f.message, w.files⟩

def start (files : Files) (args : List Text) : Progress :=
  match Invocation.read args with
  | .error .help => .done ⟨0, [], files⟩
  | .error _ => .done ⟨2, [], files⟩
  | .ok inv =>
    match Settings.load files inv.settings with
    | .error e => .done ⟨1, Console.error e.message, files⟩
    | .ok s =>
      match inv.args with
      | [] => .done ⟨1, [], files⟩
      | name :: args =>
        if name = "run" then finish files (run s inv.verbose args)
        else if name = "ast" then finish files (ast args)
        else if name = "dump" then finish files (dump args)
        else if name = "build" then finish files (build args)
        else if name = "exec" then finish files (exec s inv.verbose args)
        else if name = "repl" then
          let (history, files) := History.start s.historyPath files
          .session (.start s inv.verbose history files args) s.historyPath files
        else .done ⟨1, [], files⟩

/-- The file in which a session that is started keeps its lines, if it is known. -/
def historyPath (files : Files) (args : List Text) : List Text :=
  match Invocation.read args with
  | .error _ => []
  | .ok inv => ((Settings.load files inv.settings).toOption.map (·.historyPath)).toList

/-- Carries out a command line; a session gets all of its lines from an input. -/
def outcome (files : Files) (args : List Text) (input : Text) : Outcome :=
  match start files args with
  | .done o => o
  | .session s path files =>
    match s.type input.chars with
    | (.goes, s) => s.stop |> Session.outcome path files
    | ended => Session.outcome path files ended

end Command

end Scriptlet
