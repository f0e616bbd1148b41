import HackAssembler.Command.Arguments
import HackAssembler.Command.FileSystem
import HackAssembler.Command.OutputPath
import HackAssembler.Report

/-!
# Runs: from a command line to an output file

A run reads its input, assembles it, and only then touches the output.  What it does before and
after that is settled by `Options.prepare` and `Job.close`, which know nothing of files.

* `run`   the whole of it, on a file system.
-/

namespace HackAssembler

/-- how a run ends, and what it prints -/
structure Outcome where
  exitCode : UInt32
  output : String
  deriving DecidableEq, Repr

/-- a program that has been assembled and is to be written -/
structure Job where
  /-- printed before the words are written -/
  opening : List (List Span)
  words : List String
  /-- printed after that -/
  listing : List (List Span)

def Options.outputPath (o : Options) : String := o.output.getD (defaultOutput o.input)

/-- the words as the bytes of a file, each on a line of its own -/
def wordLines (words : List String) : ByteArray :=
  (String.join (words.map fun word => word ++ "\n")).toUTF8

def decodeSource (bytes : ByteArray) : Except FileFault String :=
  match String.fromUTF8? bytes with
  | some text => .ok text
  | none => .error .readFailed

def failed (rows : List (List Span)) : Outcome := ⟨1, renderRows rows⟩

/-- assembles what was read; a run that fails here ends without writing -/
def Options.prepare (o : Options) (source : Except FileFault ByteArray) : Except Outcome Job :=
  let reading : List (List Span) :=
    [[.plain "Hack Assembler"], [.plain "1. Read File"], [.plain ("  < " ++ o.input)]]
  match source.bind decodeSource with
  | .error f => .error (failed (reading ++ [errorRow f.message]))
  | .ok text =>
    let lines := sourceLines text
    let resolving := reading ++ [[.plain "2. Resolve Symbols"]]
    match survey lines with
    | .error f =>
      .error (failed (resolving ++ diagnostic f.fault.message o.input lines f.line))
    | .ok t =>
      let generating := resolving ++ (if o.symbols then symbolListing t else [])
        ++ [[.plain "3. Generate Binary"]]
      match Assembly.generate t lines with
      | .error f =>
        .error (failed (generating ++ diagnostic f.fault.message o.input lines f.line))
      | .ok a =>
        .ok
          { opening := generating ++ [[.plain ("  > " ++ o.outputPath)]]
            words := a.binary
            listing := if o.dump then listing o.input lines a.code else [] }

/-- what follows when the words have been written, or could not be -/
def Job.close (job : Job) : Option FileFault → Outcome
  | none => ⟨0, renderRows job.listing⟩
  | some f => failed [errorRow f.message]

def Job.finish (job : Job) (fault? : Option FileFault) : Outcome :=
  { job.close fault? with output := renderRows job.opening ++ (job.close fault?).output }

def Options.assemble (o : Options) (fs : FileSystem) : Outcome × FileSystem :=
  match o.prepare (fs.read o.input) with
  | .error outcome => (outcome, fs)
  | .ok job =>
    match fs.write o.outputPath (wordLines job.words) with
    | .ok written => (job.finish none, written)
    | .error f => (job.finish (some f), fs)

/-- the options of a command line that asks for a program to be assembled; any other is answered at
once, one with a mistake by code 2 alone -/
def options (arguments : List String) : Except Outcome Options :=
  match parseArguments arguments with
  | none => .error ⟨2, ""⟩
  | some .help => .error ⟨0, helpText⟩
  | some .version => .error ⟨0, versionText⟩
  | some (.assemble o) => .ok o

def run (arguments : List String) (fs : FileSystem) : Outcome × FileSystem :=
  match options arguments with
  | .error outcome => (outcome, fs)
  | .ok o => o.assemble fs

end HackAssembler
