import Typesweep.Path.Basic

/-!
# Command line arguments

Arguments are read from left to right. One that starts with a dash holds options, a single dash
apart; `--` ends the options. An option with a value takes what follows it in its argument, after an
equals sign or not, or else the next argument, unless that holds options itself. Reading stops at
the first mistake, and at a request for help or for the version.

* `Arguments.read`: reading the arguments.
-/

namespace Typesweep

/-- What a command line asks to be checked, and how. -/
structure Arguments where
  dirs : List Path := []
  ignore : List Text := []
  jobs : Option Nat := none
  /-- Whether to tell more about what is done. -/
  verbose : Bool := false
  json : Bool := false
  deriving DecidableEq, Repr

/-- A mistake in a command line. -/
inductive UsageError
  | unknown (option : Text)
  | missingValue (option : Text)
  | unwantedValue (option : Text)
  /-- The option may be given once only. -/
  | repeated (option : Text)
  /-- The value of the option is no number, or too large. -/
  | badNumber (option value : Text)
  | emptyDirectory
  deriving DecidableEq, Repr

/-- The message of the mistake. -/
def UsageError.message : UsageError → Text
  | .unknown option => "unexpected argument ".toList ++ option
  | .missingValue option => "a value is required for ".toList ++ option
  | .unwantedValue option => "no value is allowed for ".toList ++ option
  | .repeated option => option ++ " cannot be used multiple times".toList
  | .badNumber option value =>
    "invalid value ".toList ++ value ++ " for ".toList ++ option
  | .emptyDirectory => "a directory cannot be empty".toList

/-- Why arguments are not read to their end. -/
inductive Stop
  | help
  | version
  | misuse (error : UsageError)
  deriving DecidableEq, Repr

/-- An option without a value. -/
inductive Switch
  | verbose
  | json
  | help
  | version
  deriving DecidableEq, Repr

/-- An option with a value. -/
inductive Setting
  | ignore
  | jobs
  deriving DecidableEq, Repr

/-- An option. -/
inductive Flag
  | switch (s : Switch)
  | setting (s : Setting)
  deriving DecidableEq, Repr

/-- The option of a letter. -/
def Flag.ofLetter? : Char → Option Flag
  | 'v' => some (.switch .verbose)
  | 'h' => some (.switch .help)
  | 'V' => some (.switch .version)
  | 'i' => some (.setting .ignore)
  | 'j' => some (.setting .jobs)
  | _ => none

/-- The option of a name. -/
def Flag.ofName? (name : Text) : Option Flag :=
  match String.ofList name with
  | "verbose" => some (.switch .verbose)
  | "json" => some (.switch .json)
  | "help" => some (.switch .help)
  | "version" => some (.switch .version)
  | "ignore" => some (.setting .ignore)
  | "jobs" => some (.setting .jobs)
  | _ => none

/-- The name of a switch. -/
def Switch.name : Switch → Text
  | .verbose => "--verbose".toList
  | .json => "--json".toList
  | .help => "--help".toList
  | .version => "--version".toList

/-- The name of a setting. -/
def Setting.name : Setting → Text
  | .ignore => "--ignore".toList
  | .jobs => "--jobs".toList

/-- Whether an argument holds options. -/
def holdsOptions : Text → Bool
  | '-' :: _ :: _ => true
  | _ => false

namespace Arguments

/-- The number of jobs that a value gives: digits, perhaps after a plus sign, for a number of at
most 64 bits. -/
def jobs? (value : Text) : Option Nat :=
  match Text.numeral? (match value with | '+' :: digits => digits | digits => digits) with
  | some n => if n < UInt64.size then some n else none
  | none => none

/-- With a switch. -/
def withSwitch (a : Arguments) (s : Switch) : Except Stop Arguments :=
  match s with
  | .help => .error .help
  | .version => .error .version
  | .verbose =>
    if a.verbose then .error (.misuse (.repeated s.name)) else .ok { a with verbose := true }
  | .json =>
    if a.json then .error (.misuse (.repeated s.name)) else .ok { a with json := true }

/-- With the value of a setting. Patterns add up, and the number of jobs is given once. -/
def withSetting (a : Arguments) (s : Setting) (value : Text) : Except Stop Arguments :=
  match s with
  | .ignore => .ok { a with ignore := a.ignore ++ [value] }
  | .jobs =>
    if a.jobs.isSome then .error (.misuse (.repeated s.name))
    else
      match jobs? value with
      | some n => .ok { a with jobs := some n }
      | none => .error (.misuse (.badNumber s.name value))

/-- With a directory. -/
def withDir (a : Arguments) (dir : Text) : Except Stop Arguments :=
  if dir.isEmpty then .error (.misuse .emptyDirectory)
  else .ok { a with dirs := a.dirs ++ [.ofText dir] }

/-- With the options of some letters, and the setting that still lacks a value after them. -/
def withLetters (a : Arguments) : Text → Except Stop (Arguments × Option Setting)
  | [] => .ok (a, none)
  | c :: rest =>
    match Flag.ofLetter? c with
    | none => .error (.misuse (.unknown ['-', c]))
    | some (.switch s) => (a.withSwitch s).bind fun a => withLetters a rest
    | some (.setting s) =>
      match rest with
      | [] => .ok (a, some s)
      | '=' :: value => (a.withSetting s value).map fun a => (a, none)
      | value => (a.withSetting s value).map fun a => (a, none)

/-- With the option of a name, which may be followed by its value, and the setting that still lacks
one. -/
def withName (a : Arguments) (t : Text) : Except Stop (Arguments × Option Setting) :=
  let (name, value?) := match Text.cutAt? '=' t with
    | some (name, value) => (name, some value)
    | none => (t, none)
  match Flag.ofName? name, value? with
  | none, _ => .error (.misuse (.unknown ('-' :: '-' :: name)))
  | some (.switch s), none => (a.withSwitch s).map fun a => (a, none)
  | some (.switch s), some _ => .error (.misuse (.unwantedValue s.name))
  | some (.setting s), none => .ok (a, some s)
  | some (.setting s), some value => (a.withSetting s value).map fun a => (a, none)

/-- With the options of an argument, and the setting that takes the next argument as its value. -/
def withOptions (a : Arguments) : Text → Except Stop (Arguments × Option Setting)
  | '-' :: '-' :: name => a.withName name
  | '-' :: letters => a.withLetters letters
  | _ => .ok (a, none)

/-- The arguments after those that have been read. -/
def readFrom (a : Arguments) : List Text → Except Stop Arguments
  | [] => .ok a
  | ['-', '-'] :: dirs => dirs.foldlM withDir a
  | argument :: rest =>
    if holdsOptions argument then
      match a.withOptions argument with
      | .error stop => .error stop
      | .ok (a, none) => readFrom a rest
      | .ok (a, some s) =>
        match rest with
        | [] => .error (.misuse (.missingValue s.name))
        | value :: rest =>
          if holdsOptions value then .error (.misuse (.missingValue s.name))
          else
            match a.withSetting s value with
            | .error stop => .error stop
            | .ok a => readFrom a rest
    else
      match a.withDir argument with
      | .error stop => .error stop
      | .ok a => readFrom a rest

/-- Reads the arguments of a command line. -/
def read (arguments : List Text) : Except Stop Arguments :=
  readFrom {} arguments

end Arguments

end Typesweep
