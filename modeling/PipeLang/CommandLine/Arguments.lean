import PipeLang.Program

/-!
# Command-line arguments

The arguments are read from the left, and the first one that settles the matter does: a fault in
the usage, or the wish for the version.  An option takes its value from the same argument or from
the next one, which then must not look like an option itself.  After `--` every argument names a
file.
-/

namespace PipeLang.CommandLine

/-- What the program is asked to do. -/
structure Options where
  /-- The program text. -/
  code? : Option String
  /-- The file that holds the program text. -/
  file? : Option String
  mode? : Option PipeMode
  /-- Write the program as JSON. -/
  dumpTree : Bool
  /-- Write the chains unrolled. -/
  unroll : Bool

/-- No wish at all. -/
def Options.none : Options := ⟨.none, .none, .none, false, false⟩

/-- A fault in the usage. -/
inductive UsageError where
  | unknownOption (argument : String)
  | missingValue
  | unexpectedValue (option : String)
  | badValue (option value : String)
  | repeated (option : String)
  | extraFile (file : String)
  | codeAndFile
deriving DecidableEq

/-- The fault in words. -/
def UsageError.message : UsageError → String
  | unknownOption argument => "unknown option " ++ argument
  | missingValue => "an option lacks its value"
  | unexpectedValue option => option ++ " takes no value"
  | badValue option value => "no value for " ++ option ++ ": " ++ Text.quote value
  | repeated option => option ++ " is given twice"
  | extraFile file => "more than one file: " ++ file
  | codeAndFile => "both a file and --eval are given"

/-- Why the reading of arguments ends before their end. -/
inductive Halt where
  | usage (e : UsageError)
  | version

/-- An option with a value. -/
inductive ValueOption where
  | eval
  | pipeMode
deriving DecidableEq

/-- What is known after some arguments. -/
structure Progress where
  options : Options
  /-- The option whose value comes next. -/
  pending? : Option ValueOption
  /-- Whether only files follow. -/
  filesOnly : Bool

namespace Progress

/-- Before the first argument. -/
def start : Progress := ⟨.none, none, false⟩

/-- Note the value of an option. -/
def setValue (p : Progress) (option : ValueOption) (value : String) : Except Halt Progress :=
  let p := { p with pending? := none }
  match option with
  | .eval =>
    if p.options.code?.isSome then .error (.usage (.repeated "--eval"))
    else .ok { p with options := { p.options with code? := some value } }
  | .pipeMode =>
    match PipeMode.ofName? value with
    | none => .error (.usage (.badValue "--pipe-mode" value))
    | some mode =>
      if p.options.mode?.isSome then .error (.usage (.repeated "--pipe-mode"))
      else .ok { p with options := { p.options with mode? := some mode } }

/-- Note an option with its value in the same argument, if it is there. -/
def setOption (p : Progress) (option : ValueOption) : Option String → Except Halt Progress
  | some value => p.setValue option value
  | none => .ok { p with pending? := some option }

/-- Note a file. -/
def setFile (p : Progress) (file : String) : Except Halt Progress :=
  if file.isEmpty then .error (.usage .missingValue)
  else if p.options.file?.isSome then .error (.usage (.extraFile file))
  else .ok { p with options := { p.options with file? := some file } }

/-- Note an option in its long form, with the value after its equals sign. -/
def longOption (p : Progress) (name : String) (value? : Option String) : Except Halt Progress :=
  match name, value? with
  | "eval", value? => p.setOption .eval value?
  | "pipe-mode", value? => p.setOption .pipeMode value?
  | "dump-ast", none =>
    if p.options.dumpTree then .error (.usage (.repeated "--dump-ast"))
    else .ok { p with options := { p.options with dumpTree := true } }
  | "unroll", none =>
    if p.options.unroll then .error (.usage (.repeated "--unroll"))
    else .ok { p with options := { p.options with unroll := true } }
  | "verbose", none => .ok p
  | "version", none => .error .version
  | name, some _ => .error (.usage (.unexpectedValue ("--" ++ name)))
  | name, none => .error (.usage (.unknownOption ("--" ++ name)))

/-- Note options in their short form, written together. -/
def shortOptions (p : Progress) : List Char → Except Halt Progress
  | [] => .ok p
  | 'v' :: rest => p.shortOptions rest
  | 'V' :: _ => .error .version
  | ['e'] => p.setOption .eval none
  | 'e' :: '=' :: value => p.setOption .eval (some (String.ofList value))
  | 'e' :: value => p.setOption .eval (some (String.ofList value))
  | c :: _ => .error (.usage (.unknownOption (String.ofList ['-', c])))

/-- Note an argument that stands where an option may stand. -/
def argument (p : Progress) (text : String) : Except Halt Progress :=
  match text.toList with
  | ['-', '-'] => .ok { p with filesOnly := true }
  | '-' :: '-' :: option =>
    let name := String.ofList (option.takeWhile (· != '='))
    match option.dropWhile (· != '=') with
    | [] => p.longOption name none
    | _ :: value => p.longOption name (some (String.ofList value))
  | '-' :: c :: rest => p.shortOptions (c :: rest)
  | _ => p.setFile text

/-- Whether an argument looks like an option. -/
def isOption (text : String) : Bool :=
  match text.toList with
  | '-' :: _ :: _ => true
  | _ => false

/-- Note the next argument. -/
def next (p : Progress) (text : String) : Except Halt Progress :=
  match p.pending? with
  | some option =>
    if isOption text then .error (.usage .missingValue) else p.setValue option text
  | none => if p.filesOnly then p.setFile text else p.argument text

/-- The options, after the last argument. -/
def finish (p : Progress) : Except Halt Options :=
  if p.pending?.isSome then .error (.usage .missingValue)
  else if p.options.code?.isSome && p.options.file?.isSome then .error (.usage .codeAndFile)
  else .ok p.options

end Progress

/-- What some arguments ask for. -/
def Options.ofArguments (args : List String) : Except Halt Options := do
  (← args.foldlM Progress.next Progress.start).finish

end PipeLang.CommandLine
