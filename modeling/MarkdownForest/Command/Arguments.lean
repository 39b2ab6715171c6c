/-
# MarkdownForest.Command.Arguments -- arguments on a command line

A command has options with names, some of them with a letter too, and possibly
one operand.  An option is a flag, or takes a value:

* `--name value`, `--name=value`, `-l value`, `-lvalue` and `-l=value` give a
  value; a value in an argument of its own may be `-`, but not begin with it;
* letters may stand together, and the last of them may take a value;
* after `--` every argument is an operand, and so is a lone `-`.

Whatever is unknown, given twice, missing a value, or given one it does not take
makes the command line unreadable.
-/

namespace MarkdownForest.Command

set_option autoImplicit false

structure OptionForm where
  name : String
  letter : Option Char := none
  takesValue : Bool := false

structure Arguments where
  flags : List String := []
  values : List (String × String) := []
  operands : List String := []
  deriving DecidableEq, Repr

namespace Arguments

def has (a : Arguments) (name : String) : Bool :=
  a.flags.contains name

def value? (a : Arguments) (name : String) : Option String :=
  a.values.lookup name

def addFlag (a : Arguments) (name : String) : Option Arguments :=
  if a.has name then none else some { a with flags := name :: a.flags }

def addValue (a : Arguments) (name value : String) : Option Arguments :=
  if (a.value? name).isSome then none else some { a with values := (name, value) :: a.values }

def addOperand (a : Arguments) (operand : String) : Arguments :=
  { a with operands := a.operands ++ [operand] }

/-- Reads letters that stand together.  The name of an option that still waits for its value is
given back. -/
def readLetters (forms : List OptionForm) (a : Arguments) :
    List Char → Option (Arguments × Option String)
  | [] => some (a, none)
  | c :: s =>
    match forms.find? (·.letter == some c) with
    | none => none
    | some form =>
      if form.takesValue then
        match s with
        | [] => some (a, some form.name)
        | '=' :: value => (a.addValue form.name (String.ofList value)).map (·, none)
        | value => (a.addValue form.name (String.ofList value)).map (·, none)
      else
        match a.addFlag form.name with
        | some a => readLetters forms a s
        | none => none

/-- Reads an option given by its name, with the text after the two dashes. -/
def readName (forms : List OptionForm) (a : Arguments) (s : List Char) :
    Option (Arguments × Option String) :=
  let name := String.ofList (s.takeWhile (· != '='))
  match forms.find? (·.name == name), s.dropWhile (· != '=') with
  | none, _ => none
  | some form, [] => if form.takesValue then some (a, some name) else (a.addFlag name).map (·, none)
  | some form, _ :: value =>
    if form.takesValue then (a.addValue name (String.ofList value)).map (·, none) else none

/-- Reads one argument that is not `--`. -/
def readOne (forms : List OptionForm) (a : Arguments) (argument : String) :
    Option (Arguments × Option String) :=
  match argument.toList with
  | '-' :: '-' :: s => readName forms a s
  | ['-'] => some (a.addOperand argument, none)
  | '-' :: s => readLetters forms a s
  | _ => some (a.addOperand argument, none)

/-- Whether an argument cannot be the value of the option before it. -/
def isDashed (argument : String) : Bool :=
  argument.toList.head? = some '-' && argument != "-"

/-- Reads arguments after those read so far. -/
def readMore (forms : List OptionForm) (a : Arguments) : List String → Option Arguments
  | [] => some a
  | "--" :: more => some { a with operands := a.operands ++ more }
  | argument :: more =>
    match readOne forms a argument with
    | none => none
    | some (a, none) => readMore forms a more
    | some (a, some name) =>
      match more with
      | [] => none
      | value :: more =>
        if isDashed value then none
        else
          match a.addValue name value with
          | some a => readMore forms a more
          | none => none

/-- The arguments of a command with the given options. -/
def read? (forms : List OptionForm) (arguments : List String) : Option Arguments :=
  readMore forms {} arguments

end Arguments

end MarkdownForest.Command
