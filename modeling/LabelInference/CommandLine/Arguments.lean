namespace LabelInference.CommandLine

inductive OutputFormat where
  | text
  | json
  deriving DecidableEq

inductive Request where
  | solve (problem : String) (format : OutputFormat) (allViolations : Bool) (drawing : Option String)
  | draw (problem : String) (output : Option String)
  -- The version, of the program or of a command.
  | version (command : Option String)
  | help
  deriving DecidableEq

inductive Command where
  | solve
  | dot
  deriving DecidableEq

def Command.name : Command → String
  | .solve => "solve"
  | .dot => "dot"

def Command.ofName? : String → Option Command
  | "solve" => some .solve
  | "dot" => some .dot
  | _ => none

-- Options that may be given before the command too.
inductive SharedOption where
  | verbose
  | noColor
  | version
  | help

inductive CommandOption where
  | shared (o : SharedOption)
  | format
  | allViolations
  | file

def SharedOption.ofLong? : String → Option SharedOption
  | "verbose" => some .verbose
  | "no-color" => some .noColor
  | "version" => some .version
  | "help" => some .help
  | _ => none

def SharedOption.ofShort? : Char → Option SharedOption
  | 'v' => some .verbose
  | 'V' => some .version
  | 'h' => some .help
  | _ => none

def CommandOption.ofLong? : Command → String → Option CommandOption
  | .solve, "format" => some .format
  | .solve, "all-violations" => some .allViolations
  | .solve, "dot" => some .file
  | .dot, "output" => some .file
  | _, name => (SharedOption.ofLong? name).map .shared

def CommandOption.ofShort? : Command → Char → Option CommandOption
  | .solve, 'f' => some .format
  | .dot, 'o' => some .file
  | _, name => (SharedOption.ofShort? name).map .shared

def CommandOption.takesValue : CommandOption → Bool
  | .format | .file => true
  | _ => false

-- What has been given so far.
structure Settings where
  problem : Option String
  format : Option OutputFormat
  allViolations : Bool
  file : Option String
  noColor : Bool

def Settings.none : Settings := ⟨.none, .none, false, .none, false⟩

-- Why reading the arguments ends before their end.
inductive Stop where
  | usage
  | answer (r : Request)

abbrev Parse := Except Stop

def Settings.setProblem (s : Settings) (path : String) : Parse Settings :=
  if s.problem.isSome ∨ path = "" then .error .usage else .ok { s with problem := some path }

-- Nothing but verbosity may be given twice.
def Settings.flag (command : Option Command) (s : Settings) : SharedOption → Parse Settings
  | .verbose => .ok s
  | .noColor => if s.noColor then .error .usage else .ok { s with noColor := true }
  | .version => .error (.answer (.version (command.map Command.name)))
  | .help => .error (.answer .help)

def Settings.set (command : Command) (s : Settings) (value : String) :
    CommandOption → Parse Settings
  | .shared o => s.flag command o
  | .allViolations =>
    if s.allViolations then .error .usage else .ok { s with allViolations := true }
  | .format =>
    match s.format, value with
    | .none, "text" => .ok { s with format := some .text }
    | .none, "json" => .ok { s with format := some .json }
    | _, _ => .error .usage
  | .file => if s.file.isSome ∨ value = "" then .error .usage else .ok { s with file := some value }

-- An argument that begins with a hyphen is no value, a single hyphen apart.
def isValue (argument : String) : Bool :=
  argument = "-" || argument.toList.head? ≠ some '-'

-- A long option by its name, and the value after an equals sign.
def splitLong (letters : List Char) : String × Option String :=
  (String.ofList (letters.takeWhile (· ≠ '=')),
    match letters.dropWhile (· ≠ '=') with
    | [] => none
    | _ :: value => some (String.ofList value))

-- The short options in one argument. Returns an option that is left without its value.
def shortOptions (command : Command) (s : Settings) :
    List Char → Parse (Settings × Option CommandOption)
  | [] => .ok (s, none)
  | c :: rest =>
    match CommandOption.ofShort? command c with
    | none => .error .usage
    | some o =>
      if o.takesValue then
        match rest with
        | [] => .ok (s, some o)
        | '=' :: value => (s.set command (String.ofList value) o).map (·, none)
        | value => (s.set command (String.ofList value) o).map (·, none)
      else do shortOptions command (← s.set command "" o) rest

def longOption (command : Command) (s : Settings) (letters : List Char) :
    Parse (Settings × Option CommandOption) :=
  let (name, value) := splitLong letters
  match CommandOption.ofLong? command name, value with
  | none, _ => .error .usage
  | some o, none => if o.takesValue then .ok (s, some o) else (s.set command "" o).map (·, none)
  | some o, some value =>
    if o.takesValue then (s.set command value o).map (·, none) else .error .usage

-- One argument that is not the value of an option before it.
def argument (command : Command) (s : Settings) (arg : String) :
    Parse (Settings × Option CommandOption) :=
  match arg.toList with
  | '-' :: '-' :: letters => longOption command s letters
  | '-' :: c :: letters => shortOptions command s (c :: letters)
  | _ => (s.setProblem arg).map (·, none)

def afterEnd (s : Settings) (args : List String) : Parse Settings :=
  args.foldlM Settings.setProblem s

-- The arguments of a command, given the option that waits for its value.
def settings (command : Command) (s : Settings) : Option CommandOption → List String → Parse Settings
  | none, [] => .ok s
  | none, "--" :: args => afterEnd s args
  | none, arg :: args => do
    let (s, waiting) ← argument command s arg
    settings command s waiting args
  | some o, value :: args =>
    if isValue value then do settings command (← s.set command value o) none args
    else .error .usage
  | some _, [] => .error .usage

def requestOf (command : Command) (s : Settings) : Parse Request :=
  match command, s.problem with
  | _, none => .error .usage
  | .solve, some problem => .ok (.solve problem (s.format.getD .text) s.allViolations s.file)
  | .dot, some problem => .ok (.draw problem s.file)

-- Shared options in one argument before the command.
def sharedOptions (s : Settings) (arg : String) : Parse Settings :=
  match arg.toList with
  | '-' :: '-' :: letters =>
    match SharedOption.ofLong? (String.ofList letters) with
    | some o => s.flag none o
    | none => .error .usage
  | '-' :: c :: letters =>
    (c :: letters).foldlM
      (fun s c =>
        match SharedOption.ofShort? c with
        | some o => s.flag none o
        | none => .error .usage) s
  | _ => .error .usage

def isHelpTopic (args : List String) : Bool :=
  match args with
  | [] => true
  | [topic] => (Command.ofName? topic).isSome || topic = "help"
  | _ => false

-- Settings before the command do not count as given for it.
def request (before : Settings) : List String → Parse Request
  | [] => .error .usage
  | "help" :: args => if isHelpTopic args then .ok .help else .error .usage
  | arg :: args =>
    match Command.ofName? arg with
    | some command => do requestOf command (← settings command .none none args)
    | none => do request (← sharedOptions before arg) args

-- Nothing if the arguments are not understood.
def request? (args : List String) : Option Request :=
  match request .none args with
  | .ok r | .error (.answer r) => some r
  | .error .usage => none

end LabelInference.CommandLine
