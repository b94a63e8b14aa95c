import TarGuard.CommandLine.Arguments
import TarGuard.Extraction.Executable
import TarGuard.Extraction.Run
import TarGuard.Listing
import TarGuard.Packing

namespace TarGuard.CommandLine

structure Outcome where
  files : FileSystem
  output : String := ""
  failure : Option String := none

def alignRight (width : Nat) (s : String) : String :=
  String.ofList (List.replicate (width - s.length) ' ') ++ s

def kindLabel : EntryKind → String
  | .directory    => "dir"
  | .regular      => "file"
  | .hardLink     => "hard"
  | .symbolicLink => "link"
  | .other _      => "?"

def row (size kind name : String) : String :=
  alignRight 10 size ++ "  " ++ alignRight 4 kind ++ "  " ++ name ++ "\n"

def headerRow (h : Header) : String :=
  row (toString h.size.toNat) (kindLabel h.kind) h.fullPath

def rule : String :=
  String.ofList (List.replicate 50 '-') ++ "\n"

def listingText (archive : Path) (headers : List Header) : String :=
  "Files in " ++ archive.text ++ ":\n" ++ row "Size" "Type" "Name" ++ rule ++
    String.join (headers.map headerRow) ++
    "\nTotal: " ++ toString headers.length ++ " entries\n"

def summaryText (directory : Path) (s : Summary) : String :=
  "Extracted " ++ toString s.filesWritten.toNat ++ " file(s) and " ++
    toString s.directoriesCreated.toNat ++ " dir(s), " ++ toString s.bytesExtracted.toNat ++
    " bytes, to " ++ directory.text ++ "\n"

def packedText (archive : Path) (count : Nat) : String :=
  "Created " ++ archive.text ++ " with " ++ toString count ++ " file(s)\n"

def executableText (program : Path) : String :=
  "Executable: " ++ program.text ++ "\n"

def explain (doing what : String) : String :=
  doing ++ ": " ++ what

-- Makes a program executable in the directory that was extracted to. The directory is taken as it
-- was given, with `..` in it.
def markProgram (limits : Limits) (directory : Path) (program : String) (done : Outcome) :
    Outcome :=
  match done.files.absolute directory with
  | none => { done with failure := some "cannot make an empty path absolute" }
  | some root =>
    match Executable.mark limits root program done.files with
    | .ok (target, fs) =>
      { done with files := fs, output := done.output ++ executableText target }
    | .error e =>
      { done with failure := some (explain ("Failed to prepare " ++ program) e.message) }

def Command.run (limits : Limits) (interrupted : Bool) (fs : FileSystem) : Command → Outcome
  | .extract archive directory program =>
    let x : Extractor := { limits := limits, cancelAfter := if interrupted then some 0 else none }
    match x.runFile archive directory fs with
    | .error e fs =>
      { files := fs, failure := explain ("Failed to extract " ++ archive.text) e.message }
    | .ok summary fs =>
      let done : Outcome := { files := fs, output := summaryText directory summary }
      match program with
      | some program => markProgram limits directory program done
      | none => done
  | .list archive =>
    match Listing.ofFile fs archive limits with
    | .error e => { files := fs, failure := explain ("Failed to list " ++ archive.text) e.message }
    | .ok headers => { files := fs, output := listingText archive headers }
  | .pack archive files =>
    match Packing.pack fs archive files with
    | .error e => { files := fs, failure := explain ("Failed to write " ++ archive.text) e.message }
    | .ok (count, fs) => { files := fs, output := packedText archive count }

def runWithEnvironment (lookup : String → Option String) (interrupted : Bool) (fs : FileSystem)
    (c : Command) : Outcome :=
  match Limits.ofEnvironment lookup with
  | .error e => { files := fs, failure := explain "Invalid extraction limits" e.message }
  | .ok limits => c.run limits interrupted fs

def Outcome.exitCode (interrupted : Bool) (o : Outcome) : UInt32 :=
  if o.failure = none then 0 else if interrupted then 130 else 1

def versionText : String := "safe_tgz 0.1.0\n"

def Notice.output : Notice → String
  | .version => versionText
  | _ => ""

def Notice.exitCode : Notice → UInt32
  | .usageError => 2
  | _ => 0

end TarGuard.CommandLine
