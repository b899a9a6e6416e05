/-
  Scriptlet.Flags — the flags in front of the arguments of a command.

  A flag is written with one or two dashes. Its value stands behind `=` or is the argument
  that follows; a switch has the value true unless `=` says otherwise. The flags end at the
  first argument that is none, or behind `--`.
-/

import Scriptlet.Text.Quoted

namespace Scriptlet

structure Flag where
  name : Text
  /-- A switch takes no argument. -/
  isSwitch : Bool := false
  deriving DecidableEq, Repr

inductive FlagError where
  | malformed (arg : Text)
  | unknown (name : Text)
  | noValue (name : Text)
  | notBool (name value : Text)
  /-- The user asks how the command is used. -/
  | help
  deriving DecidableEq, Repr

def FlagError.message : FlagError → Text
  | .malformed arg => "bad flag syntax: " ++ arg
  | .unknown name => "flag provided but not defined: -" ++ name
  | .noValue name => "flag needs an argument: -" ++ name
  | .notBool name value => "invalid boolean value " ++ Text.quoted value ++ " for -" ++ name ++ ": parse error"
  | .help => "flag: help requested"

namespace Flag

inductive Arg where
  /-- A flag, with a value if there is one behind `=`. -/
  | flag (name : Text) (value : Option Text)
  | plain
  | stop
  | malformed
  deriving DecidableEq, Repr

def dash : UInt8 := '-'.toUInt8

def equals : UInt8 := '='.toUInt8

def Arg.ofName : Text → Arg
  | [] => .malformed
  | b :: r =>
    if b = dash ∨ b = equals then .malformed
    else
      let (name, value) := Text.cut equals r
      .flag (b :: name) value

def Arg.read (arg : Text) : Arg :=
  match arg with
  | [] | [_] => .plain
  | b :: c :: r =>
    if b ≠ dash then .plain
    else if c ≠ dash then Arg.ofName (c :: r)
    else if r.isEmpty then .stop
    else Arg.ofName r

abbrev Values := List (Text × Text)

def parse (flags : List Flag) : List Text → Except FlagError (Values × List Text)
  | [] => .ok ([], [])
  | arg :: rest =>
    match Arg.read arg with
    | .plain => .ok ([], arg :: rest)
    | .stop => .ok ([], rest)
    | .malformed => .error (.malformed arg)
    | .flag name value =>
      match flags.find? (·.name == name) with
      | none => .error (if name = "help" ∨ name = "h" then .help else .unknown name)
      | some flag =>
        if flag.isSwitch then
          let v := value.getD "true"
          if Text.trueWords.contains v || Text.falseWords.contains v then more name v (parse flags rest)
          else .error (.notBool name v)
        else match value, rest with
          | some v, rest => more name v (parse flags rest)
          | none, v :: rest => more name v (parse flags rest)
          | none, [] => .error (.noValue name)
where
  more (name v : Text) (r : Except FlagError (Values × List Text)) : Except FlagError (Values × List Text) :=
    r.map fun (vs, args) => ((name, v) :: vs, args)

def value? (vs : Values) (name : Text) : Option Text := (vs.reverse.find? (·.1 == name)).map (·.2)

end Flag

end Scriptlet
