import LiquidTemplate.Command.Basic
import LiquidTemplate.Command.Help

/-!
# Reading the command line

Arguments are taken from left to right, and the first one that asks for help, asks for the version
or is wrong decides. Flags may stand before or behind the path; after `--` everything is a path.
-/

namespace LiquidTemplate

/-- What the program is asked to do. -/
inductive Request where
  | run (command : Command)
  | help (topic : Topic)
  | version
deriving DecidableEq, Repr

/-- Why a command line is refused. -/
inductive UsageError where
  | missingCommand
  | unknownCommand (name : Text)
  | missingPath
  | unexpectedArgument (argument : Text)
  | unknownFlag (flag : Text)
  | repeatedFlag (flag : Text)
  /-- A value for a flag that takes none. -/
  | unneededValue (flag : Text)
deriving DecidableEq, Repr

def UsageError.message : UsageError → Text
  | missingCommand => Topic.program.text
  | unknownCommand name => "error: unrecognized subcommand: ".toList ++ name
  | missingPath => "error: a required argument was not provided: <PATH>".toList
  | unexpectedArgument argument => "error: unexpected argument: ".toList ++ argument
  | unknownFlag flag => "error: unexpected argument: ".toList ++ flag
  | repeatedFlag flag => "error: an argument cannot be used multiple times: ".toList ++ flag
  | unneededValue flag => "error: unexpected value for an argument: ".toList ++ flag

/-- The forms of an argument. -/
inductive Argument where
  /-- The argument `--`, behind which there are no flags. -/
  | escape
  /-- A flag `--name`, or `--name=value`. -/
  | long (name : Text) (value : Option Text)
  /-- One-letter flags behind one `-`. -/
  | cluster (flags : Text)
  | plain (text : Text)
deriving DecidableEq, Repr

namespace Argument

/-- Splits a long flag from its value. -/
def ofLong (t : Text) : Argument :=
  match Text.splitFirst? ['='] t with
  | some (name, value) => long name (some value)
  | none => long t none

def ofText : Text → Argument
  | ['-', '-'] => escape
  | '-' :: '-' :: t => ofLong t
  | '-' :: c :: t => cluster (c :: t)
  | t => plain t

end Argument

/-- The flags of the commands. -/
inductive CommandFlag where
  | help
  | pretty
deriving DecidableEq, Repr

namespace CommandFlag

/-- The flag of a command that has this long name. -/
def ofLong? (topic : Topic) (name : Text) : Option CommandFlag :=
  if name = "help".toList then some help
  else if name = "pretty".toList ∧ topic = .ast then some pretty
  else none

/-- The flag of a command that has this letter. -/
def ofShort? (topic : Topic) (c : Char) : Option CommandFlag :=
  if c = 'h' then some help else if c = 'p' ∧ topic = .ast then some pretty else none

end CommandFlag

/-- Why reading the arguments of a command ends early. -/
inductive Interruption where
  | help (topic : Topic)
  | refused (error : UsageError)
deriving DecidableEq, Repr

/-- The arguments of a command that were read so far. -/
structure Options where
  path : Option Text
  pretty : Bool
deriving DecidableEq, Repr

namespace Options

def initial : Options := ⟨none, false⟩

def setFlag (o : Options) (topic : Topic) (written : Text) :
    Option CommandFlag → Except Interruption Options
  | none => .error (.refused (.unknownFlag written))
  | some .help => .error (.help topic)
  | some .pretty =>
    if o.pretty then .error (.refused (.repeatedFlag written)) else .ok { o with pretty := true }

def setLong (o : Options) (topic : Topic) (name : Text) (value : Option Text) :
    Except Interruption Options :=
  let written := ['-', '-'] ++ name
  match CommandFlag.ofLong? topic name, value with
  | some _, some _ => .error (.refused (.unneededValue written))
  | flag, _ => o.setFlag topic written flag

def setCluster (o : Options) (topic : Topic) : Text → Except Interruption Options
  | [] => .ok o
  | c :: flags =>
    match o.setFlag topic ['-', c] (CommandFlag.ofShort? topic c) with
    | .ok o => o.setCluster topic flags
    | .error i => .error i

def addPath (o : Options) (t : Text) : Except Interruption Options :=
  match o.path with
  | none => .ok { o with path := some t }
  | some _ => .error (.refused (.unexpectedArgument t))

/-- Reads arguments of which none is a flag. -/
def readPaths (o : Options) : List Text → Except Interruption Options
  | [] => .ok o
  | t :: ts => o.addPath t >>= fun o => o.readPaths ts

/-- Reads the arguments of a command. -/
def read (o : Options) (topic : Topic) : List Text → Except Interruption Options
  | [] => .ok o
  | t :: ts =>
    match Argument.ofText t with
    | .escape => o.readPaths ts
    | .long name value => o.setLong topic name value >>= fun o => o.read topic ts
    | .cluster flags => o.setCluster topic flags >>= fun o => o.read topic ts
    | .plain path => o.addPath path >>= fun o => o.read topic ts

end Options

namespace Request

/-- Reads the arguments behind the name of a command. -/
def ofOptions (topic : Topic) (command : Text → Bool → Command) (args : List Text) :
    Except UsageError Request :=
  match Options.initial.read topic args with
  | .error (.help topic) => .ok (.help topic)
  | .error (.refused e) => .error e
  | .ok ⟨some path, pretty⟩ => .ok (.run (command path pretty))
  | .ok ⟨none, _⟩ => .error .missingPath

/-- Reads the arguments behind `help`: at most one name, as no command has commands of its own. -/
def ofHelp : List Text → Except UsageError Request
  | [] => .ok (.help .program)
  | name :: more =>
    let topic? : Option Topic :=
      if name = "check".toList then some .check
      else if name = "ast".toList then some .ast
      else if name = "help".toList then some .help
      else none
    match topic?, more with
    | none, _ => .error (.unknownCommand name)
    | some topic, [] => .ok (.help topic)
    | some _, other :: _ => .error (.unknownCommand other)

/-- Reads a word that stands where a command is expected. -/
def ofWord (name : Text) (args : List Text) : Except UsageError Request :=
  if name = "check".toList then ofOptions .check (fun path _ => .check path) args
  else if name = "ast".toList then ofOptions .ast .ast args
  else if name = "help".toList then ofHelp args
  else .error (.unknownCommand name)

/-- Reads the arguments of the program. -/
def ofArguments : List Text → Except UsageError Request
  | [] => .error .missingCommand
  | t :: ts =>
    match Argument.ofText t with
    | .escape =>
      match ts with
      | [] => .error .missingCommand
      | other :: _ => .error (.unexpectedArgument other)
    | .long name value =>
      if name = "help".toList ∨ name = "version".toList then
        match value with
        | some _ => .error (.unneededValue t)
        | none => .ok (if name = "help".toList then .help .program else .version)
      else .error (.unknownFlag t)
    | .cluster ('h' :: _) => .ok (.help .program)
    | .cluster ('V' :: _) => .ok .version
    | .cluster _ => .error (.unknownFlag t)
    | .plain name => ofWord name ts

end Request

/-- Runs the program on its arguments; `read` gives the content of a file. -/
def runProgram {m : Type → Type} [Monad m] (read : Text → m (Except ReadFailure Text))
    (args : List Text) : m Outcome :=
  match Request.ofArguments args with
  | .error e => pure (.misused e.message)
  | .ok .version => pure (.printed versionText)
  | .ok (.help topic) => pure (.printed topic.text)
  | .ok (.run command) => command.run <$> read command.path

end LiquidTemplate
