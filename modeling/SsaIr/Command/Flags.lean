import SsaIr.Number.Integer
import SsaIr.Text.Quoted

/-!
# Flags

The flags of a command line. A flag is written with one dash or two; its value follows an equals
sign or is the next argument, and a switch needs none. Reading stops at the first argument that is
not a flag, and after a lone `--`. Read `Flags.read` first.
-/

namespace SsaIr

inductive FlagKind where
  | switch
  | integer
  | text
deriving DecidableEq, Repr, Inhabited

structure Flag where
  names : List String
  kind : FlagKind
  help : String
deriving DecidableEq, Repr, Inhabited

inductive FlagValue where
  | switch (on : Bool)
  | integer (n : Int64)
  | text (s : String)
deriving DecidableEq, Repr, Inhabited

inductive FlagError where
  | badShape (arg : String)
  | unknown (name : String)
  | missingValue (name : String)
  | badSwitch (value name : String)
  | badInteger (value name : String) (outOfRange : Bool)
  | twoForms (later earlier : String)
deriving DecidableEq, Repr, Inhabited

def FlagError.message : FlagError → String
  | badShape arg => s!"bad flag syntax: {arg}"
  | unknown name => s!"flag provided but not defined: -{name}"
  | missingValue name => s!"flag needs an argument: -{name}"
  | badSwitch value name => s!"invalid boolean value {Text.escape value} for -{name}: parse error"
  | badInteger value name outOfRange =>
    let reason := if outOfRange then "value out of range" else "parse error"
    s!"invalid value {Text.escape value} for flag -{name}: {reason}"
  | twoForms later earlier => s!"Cannot use two forms of the same flag: {later} {earlier}"

/-- The flags that were given by the names used, newest first, and the other arguments. -/
structure Flags where
  given : List (String × FlagValue) := []
  args : List String := []
deriving DecidableEq, Repr, Inhabited

namespace Flags

inductive Shape where
  | plain
  | terminator
  | flag (name : String) (value : Option String)
  | bad
deriving DecidableEq, Repr

def splitValue (cs : List Char) : String × Option String :=
  match cs.dropWhile (· ≠ '=') with
  | [] => (String.ofList cs, none)
  | _ :: value => (String.ofList (cs.takeWhile (· ≠ '=')), some (String.ofList value))

def named (cs : List Char) : Shape :=
  match cs with
  | [] => .bad
  | '-' :: _ => .bad
  | '=' :: _ => .bad
  | cs =>
    let (name, value) := splitValue cs
    .flag name value

def shape (arg : String) : Shape :=
  match arg.toList with
  | ['-', '-'] => .terminator
  | '-' :: '-' :: cs => named cs
  | '-' :: c :: cs => named (c :: cs)
  | _ => .plain

def valueOf (kind : FlagKind) (name value : String) : Except FlagError FlagValue :=
  match kind with
  | .text => .ok (.text value)
  | .integer =>
    match readInt value with
    | .value n => .ok (.integer n)
    | .outOfRange => .error (.badInteger value name true)
    | .malformed => .error (.badInteger value name false)
  | .switch =>
    match readBool? value with
    | some b => .ok (.switch b)
    | none => .error (.badSwitch value name)

def readFrom (flags : List Flag) (given : List (String × FlagValue)) :
    List String → Flags × Option FlagError
  | [] => (⟨given, []⟩, none)
  | arg :: rest =>
    let stop (e : FlagError) : Flags × Option FlagError := (⟨given, rest⟩, some e)
    match shape arg with
    | .plain => (⟨given, arg :: rest⟩, none)
    | .terminator => (⟨given, rest⟩, none)
    | .bad => stop (.badShape arg)
    | .flag name value =>
      match flags.find? fun f => f.names.contains name with
      | none => stop (.unknown name)
      | some f =>
        match value with
        | some v =>
          match valueOf f.kind name v with
          | .ok v => readFrom flags ((name, v) :: given) rest
          | .error e => stop e
        | none =>
          if f.kind = .switch then readFrom flags ((name, .switch true) :: given) rest
          else
            match rest with
            | [] => stop (.missingValue name)
            | v :: rest =>
              match valueOf f.kind name v with
              | .ok v => readFrom flags ((name, v) :: given) rest
              | .error e => stop e

def doubled (flags : List Flag) (given : List (String × FlagValue)) : Option FlagError :=
  flags.findSome? fun f =>
    match f.names.filter fun n => (given.lookup n).isSome with
    | earlier :: later :: _ => some (.twoForms later earlier)
    | _ => none

/-- Read flags from the front of the arguments, with the error that is to be reported: a flag that
was given under two names comes first. -/
def read (flags : List Flag) (args : List String) : Flags × Option FlagError :=
  let (r, e) := readFrom flags [] args
  (r, (doubled flags r.given).or e)

/-- Read flags from anywhere before a lone `--`: the arguments from the first flag on are taken
before those that precede it. -/
def readAnywhere (flags : List Flag) (args : List String) : Flags × Option FlagError :=
  let front := args.takeWhile (· ≠ "--")
  let isFlag (arg : String) : Bool := arg.startsWith "-" && arg ≠ "-"
  let plain := front.takeWhile fun a => !isFlag a
  let moved := front.dropWhile fun a => !isFlag a
  read flags (if moved.isEmpty then args else moved ++ plain ++ args.drop front.length)

def find? (r : Flags) (f : Flag) : Option FlagValue := f.names.findSome? fun n => r.given.lookup n

def isOn (r : Flags) (f : Flag) : Bool := r.find? f = some (.switch true)

def integer? (r : Flags) (f : Flag) : Option Int64 :=
  match r.find? f with
  | some (.integer n) => some n
  | _ => none

def textOf (r : Flags) (f : Flag) : String :=
  match r.find? f with
  | some (.text s) => s
  | _ => ""

end Flags

end SsaIr
