import TarGuard.Archive
import TarGuard.FileSystem.Call
import TarGuard.Gzip.Store

namespace TarGuard.Packing

def modeBits : UInt32 := 0o7777

-- A file as an entry under its base name. A time before 1970 is taken for its beginning.
def entryOfFile (name : String) (f : File) : Entry where
  header := { Header.regular name (f.mode &&& modeBits) (.ofNat f.content.length) with
    modified := .ofNat f.modified.toNat }
  payload := f.content

def entryOfPath? (fs : FileSystem) (p : Path) : Except SystemError (Option Entry) := do
  match ← fs.linkStatus p with
  | .file f =>
    let content ← fs.read p
    match p.fileName? with
    | some name => return some (entryOfFile name { f with content := content })
    | none => throw .noFileName
  | _ => return none

def compressedEndings : List (List Char) :=
  [".tgz".toList, ".tar.gz".toList]

def isCompressedName (archive : Path) : Bool :=
  compressedEndings.any (·.isSuffixOf archive.text.toList)

def archiveContent (archive : Path) (entries : List Entry)
    (compress : List UInt8 → List UInt8 := Gzip.store) : List UInt8 :=
  let tar := Archive.write entries
  if isCompressedName archive then compress tar else tar

def pack (fs : FileSystem) (archive : Path) (files : List Path)
    (compress : List UInt8 → List UInt8 := Gzip.store) :
    Except SystemError (Nat × FileSystem) := do
  let entries := (← files.mapM (entryOfPath? fs)).filterMap id
  let fs ← fs.write archive (archiveContent archive entries compress)
  return (entries.length, fs)

end TarGuard.Packing
