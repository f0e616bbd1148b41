/-!
# Arguments: what a command line asks for

The command line names an input file and options.  An option is `--name` or a letter; letters may
be joined.  Arguments are read from left to right, and the first mistake, or the first request for
help or the version, settles the matter.

* `parseArguments`   `none` stands for a mistake: an unknown or repeated option, a second input, a
                     value where none belongs, or none where one belongs.
-/

namespace HackAssembler

structure Options where
  input : String
  output : Option String
  dump : Bool
  symbols : Bool
  deriving DecidableEq, Repr

inductive Request where
  | assemble (options : Options)
  | help
  | version
  deriving DecidableEq, Repr

def defaultInput : String := "main.asm"

def versionText : String := "hackasm 0.1.0\n"

def helpText : String :=
  versionText
    ++ "  Two-pass assembler for the Hack 16-bit computer\n"
    ++ "\n"
    ++ "Usage:\n"
    ++ "  hackasm [OPTIONS] [INPUT]\n"
    ++ "\n"
    ++ "Arguments:\n"
    ++ "  [INPUT]  Input file [default: " ++ defaultInput ++ "]\n"
    ++ "\n"
    ++ "Options:\n"
    ++ "  -o, --output <OUTPUT>  Output file [default: input with `.hack` extension]\n"
    ++ "  -d, --dump             Dump annotated listing\n"
    ++ "  -s, --symbols          Print symbol table\n"
    ++ "  -h, --help             Print help\n"
    ++ "  -V, --version          Print version\n"

namespace Arguments

/-- the arguments read so far -/
structure Given where
  input : Option String := none
  output : Option String := none
  dump : Bool := false
  symbols : Bool := false

def Given.options (g : Given) : Options :=
  ⟨g.input.getD defaultInput, g.output, g.dump, g.symbols⟩

/-! ## one argument -/

/-- what reading one argument leads to -/
inductive Step where
  | next (g : Given)
  /-- the next argument is the output -/
  | output (g : Given)
  | answer (r : Request)

def giveInput (g : Given) (path : String) : Option Given :=
  match g.input with
  | none => some { g with input := some path }
  | some _ => none

def giveOutput (g : Given) (path : String) : Option Given :=
  match g.output with
  | none => some { g with output := some path }
  | some _ => none

def giveDump (g : Given) : Option Given := if g.dump then none else some { g with dump := true }

def giveSymbols (g : Given) : Option Given :=
  if g.symbols then none else some { g with symbols := true }

/-- an output joined to its letter may be set off by `=` -/
def dropEquals : List Char → List Char
  | '=' :: cs => cs
  | cs => cs

/-- joined letters; the output takes all that follows its letter -/
def readLetters (g : Given) : List Char → Option Step
  | [] => some (.next g)
  | 'd' :: cs => (giveDump g).bind fun g => readLetters g cs
  | 's' :: cs => (giveSymbols g).bind fun g => readLetters g cs
  | 'h' :: _ => some (.answer .help)
  | 'V' :: _ => some (.answer .version)
  | 'o' :: [] => some (.output g)
  | 'o' :: cs => (giveOutput g (String.ofList (dropEquals cs))).map .next
  | _ => none

/-- the name of an option, and the value after its first `=` -/
def cutValue : List Char → List Char × Option (List Char)
  | [] => ([], none)
  | c :: cs =>
    if c = '=' then
      ([], some cs)
    else
      (c :: (cutValue cs).1, (cutValue cs).2)

def readName (g : Given) (cs : List Char) : Option Step :=
  match String.ofList (cutValue cs).1, (cutValue cs).2 with
  | "dump", none => (giveDump g).map .next
  | "symbols", none => (giveSymbols g).map .next
  | "help", none => some (.answer .help)
  | "version", none => some (.answer .version)
  | "output", none => some (.output g)
  | "output", some value => (giveOutput g (String.ofList value)).map .next
  | _, _ => none

/-- a lone `-` is the name of a file -/
def isOption : List Char → Bool
  | '-' :: _ :: _ => true
  | _ => false

def readOne (g : Given) (argument : String) : Option Step :=
  match argument.toList with
  | '-' :: '-' :: cs => readName g cs
  | '-' :: c :: cs => readLetters g (c :: cs)
  | _ => (giveInput g argument).map .next

/-! ## the whole line -/

/-- after `--` no argument is an option -/
def readInputs (g : Given) : List String → Option Request
  | [] => some (.assemble g.options)
  | argument :: rest => (giveInput g argument).bind fun g => readInputs g rest

/-- `waiting` while an option waits for the output -/
def readAll (g : Given) (waiting : Bool) : List String → Option Request
  | [] => if waiting then none else some (.assemble g.options)
  | argument :: rest =>
    if waiting then
      if isOption argument.toList then
        none
      else
        (giveOutput g argument).bind fun g => readAll g false rest
    else if argument = "--" then
      readInputs g rest
    else
      match readOne g argument with
      | none => none
      | some (.next g) => readAll g false rest
      | some (.output g) => readAll g true rest
      | some (.answer r) => some r

end Arguments

def parseArguments (arguments : List String) : Option Request :=
  Arguments.readAll {} false arguments

end HackAssembler
