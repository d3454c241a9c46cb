/-
The options of the command line.  Letters may be run together behind one dash, an option that takes an
argument swallows the rest of its cluster or else the next argument, and anything that is not an option
is ignored.
-/

namespace Forth

/-- The options, in the order in which the help text lists them. -/
inductive Switch where
  /-- Run a script file. -/
  | script
  /-- Evaluate a library file in place of the bundled library. -/
  | library
  /-- Start with the primitives only. -/
  | bare
  /-- Set the heap capacity. -/
  | capacity
  /-- Read lines from the user after the script. -/
  | interactive
  /-- Print the help text. -/
  | help
deriving DecidableEq, Repr

namespace Switch

def all : List Switch := [.script, .library, .bare, .capacity, .interactive, .help]

def letter : Switch → Char
  | .script => 's'
  | .library => 'l'
  | .bare => 'n'
  | .capacity => 'm'
  | .interactive => 'i'
  | .help => 'h'

/-- The name by which the whole option is called: its long form if it has one. -/
def name : Switch → String
  | .help => "help"
  | s => s.letter.toString

def takesArgument : Switch → Bool
  | .script | .library | .capacity => true
  | _ => false

def ofLetter? (c : Char) : Option Switch :=
  all.find? fun s => s.letter == c

/-- The option that a word behind two dashes means: a long name, or a letter on its own. -/
def ofName? : List Char → Option Switch
  | [c] => ofLetter? c
  | cs => if cs = "help".toList then some .help else none

end Switch

/-- Why the arguments of the command line are refused.  Options are named as they were written. -/
inductive OptionFault where
  | unrecognized (name : String)
  | missingArgument (name : String)
  | unexpectedArgument (name : String)
  | repeated (name : String)
deriving DecidableEq, Repr

/-- The text shown for arguments that are refused. -/
def OptionFault.message : OptionFault → String
  | .unrecognized name => "Unrecognized option: '" ++ name ++ "'"
  | .missingArgument name => "Argument to option '" ++ name ++ "' missing"
  | .unexpectedArgument name => "Option '" ++ name ++ "' does not take an argument"
  | .repeated name => "Option '" ++ name ++ "' given more than once"

/-- An option that was given, with its argument if it takes one. -/
structure Setting where
  switch : Switch
  value : String
deriving DecidableEq, Repr

/-- The options that stand in one argument. -/
structure Cluster where
  /-- The options that are complete. -/
  settings : List Setting
  /-- The option at the end that still wants its argument, as it was written. -/
  pending : Option (Switch × String)
deriving DecidableEq, Repr

namespace Cluster

/-- The letters behind a single dash. -/
def ofLetters : List Char → Except OptionFault Cluster
  | [] => .ok ⟨[], none⟩
  | c :: cs =>
      match Switch.ofLetter? c with
      | none => .error (.unrecognized c.toString)
      | some s =>
          if s.takesArgument then
            if cs.isEmpty then .ok ⟨[], some (s, c.toString)⟩
            else .ok ⟨[⟨s, String.ofList cs⟩], none⟩
          else
            match ofLetters cs with
            | .ok rest => .ok { rest with settings := ⟨s, ""⟩ :: rest.settings }
            | .error fault => .error fault

/-- A name behind two dashes, with the argument that an equals sign attaches to it. -/
def ofLong (cs : List Char) : Except OptionFault Cluster :=
  let name := cs.takeWhile (· != '=')
  let value? := (cs.dropWhile (· != '=')).tail?
  match Switch.ofName? name, value? with
  | none, _ => .error (.unrecognized (String.ofList name))
  | some s, some value =>
      if s.takesArgument then .ok ⟨[⟨s, String.ofList value⟩], none⟩
      else .error (.unexpectedArgument (String.ofList name))
  | some s, none =>
      if s.takesArgument then .ok ⟨[], some (s, String.ofList name)⟩
      else .ok ⟨[⟨s, ""⟩], none⟩

end Cluster

/-- What an argument is, before the arguments around it are looked at. -/
inductive Argument where
  /-- Not an option. -/
  | operand
  /-- The end of the options. -/
  | terminator
  | options (cluster : Except OptionFault Cluster)

/-- A dash begins options unless it stands alone, and two dashes alone end them. -/
def Argument.classify (arg : String) : Argument :=
  match arg.toList with
  | ['-', '-'] => .terminator
  | '-' :: '-' :: cs => .options (Cluster.ofLong cs)
  | '-' :: c :: cs => .options (Cluster.ofLetters (c :: cs))
  | _ => .operand

/-- The settings among the arguments, in order.  The first fault from the left decides. -/
def settings : List String → Except OptionFault (List Setting)
  | [] => .ok []
  | arg :: args =>
      match Argument.classify arg with
      | .operand => settings args
      | .terminator => .ok []
      | .options (.error fault) => .error fault
      | .options (.ok ⟨given, none⟩) => (settings args).map (given ++ ·)
      | .options (.ok ⟨given, some (switch, name)⟩) =>
          match args with
          | [] => .error (.missingArgument name)
          | value :: args => (settings args).map (given ++ ⟨switch, value⟩ :: ·)

/-- The options of a command line. -/
structure Options where
  script : Option String
  library : Option String
  bare : Bool
  capacity : Option String
  interactive : Bool
  help : Bool
deriving DecidableEq, Repr

namespace Options

/-- The argument of an option among the settings. -/
def value? (given : List Setting) (switch : Switch) : Option String :=
  (given.find? fun s => s.switch == switch).map Setting.value

def isGiven (given : List Setting) (switch : Switch) : Bool :=
  given.any fun s => s.switch == switch

def ofSettings (given : List Setting) : Options where
  script := value? given .script
  library := value? given .library
  bare := isGiven given .bare
  capacity := value? given .capacity
  interactive := isGiven given .interactive
  help := isGiven given .help

/-- The first option, in the order of the help text, that is given twice. -/
def repeated? (given : List Setting) : Option Switch :=
  Switch.all.find? fun switch => decide (1 < given.countP fun s => s.switch == switch)

/-- Reads the arguments of the command line. -/
def parse (args : List String) : Except OptionFault Options :=
  match settings args with
  | .error fault => .error fault
  | .ok given =>
      match repeated? given with
      | some switch => .error (.repeated switch.name)
      | none => .ok (ofSettings given)

/-- The text that explains the options of a program. -/
def usage (program : String) : String :=
  "Usage: " ++ program ++ " [options]\n\n" ++
  "Options:\n" ++
  "    -s FILE             run script file\n" ++
  "    -l FILE             bootstrap library instead of the bundled one\n" ++
  "    -n                  skip the bootstrap library\n" ++
  "    -m CELLS            heap capacity in cells\n" ++
  "    -i                  enter the repl after the script\n" ++
  "    -h, --help          print this help\n"

end Options

end Forth
