import TarGuard.CommandLine.Run
import TarGuard.FileSystem.Arrange

open TarGuard

namespace TarGuard.Disk

-- The node at a path, with all that is below it if `deep` is set. Modes are not taken over.
partial def load (deep : Bool) (fs : FileSystem) (p : TarGuard.Path) : IO FileSystem := do
  let place := (← IO.currentDir) / p.text
  let .ok found ← place.symlinkMetadata.toBaseIO | return fs
  match found.type with
  | .dir =>
    let fs := fs.withDirectory p
    if deep then
      (← place.readDir).foldlM (fun fs entry => load deep fs (p.join ⟨entry.fileName⟩)) fs
    else
      return fs
  | .file =>
    let .ok content ← (IO.FS.readBinFile place).toBaseIO | return fs
    return fs.withFile p ⟨content.toList, FileSystem.defaultFileMode, found.modified.sec⟩
  | .symlink =>
    let .ok target ← (IO.FS.realPath place).toBaseIO | return fs.withLink p "missing"
    load deep (fs.withLink p target.toString) ⟨target.toString⟩
  | .other => return fs

def loadAlong (deep : Bool) (fs : FileSystem) (p : TarGuard.Path) : IO FileSystem := do
  match fs.absolute p with
  | none => return fs
  | some p =>
    let p := p.normalize
    load deep (← p.parents.reverse.foldlM (load false) fs) p

def snapshot (c : CommandLine.Command) : IO FileSystem := do
  let here : TarGuard.Path := ⟨(← IO.currentDir).toString⟩
  let fs := (FileSystem.root 0).withDirectory here
  let fs := match fs.locate .status here with
    | .ok loc => fs.enter loc
    | .error _ => fs
  match c with
  | .extract archive directory _ => loadAlong true (← loadAlong false fs archive) directory
  | .list archive => loadAlong false fs archive
  | .pack archive files => (archive :: files).foldlM (loadAlong false) fs

def changes (before after : FileSystem) : List (TarGuard.Path × Node) :=
  (after.below []).filterMap fun (names, node) =>
    if before.node? names.reverse = some node then none
    else some (FileSystem.pathTo names.reverse, node)

def rights (digit : UInt32) : IO.AccessRight where
  read := digit &&& 4 ≠ 0
  write := digit &&& 2 ≠ 0
  execution := digit &&& 1 ≠ 0

def fileRight (mode : UInt32) : IO.FileRight where
  user := rights (mode >>> 6)
  group := rights (mode >>> 3)
  other := rights mode

def store (before : FileSystem) (change : TarGuard.Path × Node) : IO Unit := do
  let (p, node) := change
  match node with
  | .directory mode =>
    IO.FS.createDir p.text
    IO.setAccessRights p.text (fileRight mode)
  | .file f =>
    let fresh := !(before.linkStatus p).isOk
    let handle ← IO.FS.Handle.mk p.text (if fresh then .writeNew else .write)
    handle.write ⟨f.content.toArray⟩
    handle.flush
    IO.setAccessRights p.text (fileRight f.mode)
  | .link _ => return

def usage : String :=
  "Usage: safe_tgz [-v] extract [--exec REL] ARCHIVE DIRECTORY\n" ++
  "       safe_tgz [-v] list ARCHIVE\n" ++
  "       safe_tgz [-v] pack ARCHIVE FILE...\n"

def settings : IO (List (String × String)) :=
  Limits.Field.all.filterMapM fun field => do
    return (← IO.getEnv field.variableName).map fun value => (field.variableName, value)

end TarGuard.Disk

open TarGuard.Disk in
def main (args : List String) : IO UInt32 := do
  match CommandLine.Command.ofArguments args with
  | .error notice =>
    match notice with
    | .usageError => IO.eprint usage
    | .help => IO.print usage
    | .version => IO.print notice.output
    return notice.exitCode
  | .ok command =>
    let settings ← settings
    let before ← snapshot command
    let outcome := CommandLine.runWithEnvironment (settings.lookup ·) false before command
    (changes before outcome.files).forM (store before)
    IO.print outcome.output
    if let some failure := outcome.failure then
      IO.eprintln ("Error: " ++ failure)
    return outcome.exitCode false
