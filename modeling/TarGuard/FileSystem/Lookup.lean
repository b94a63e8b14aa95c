import TarGuard.FileSystem.Basic
import TarGuard.Path.Basic

namespace TarGuard

inductive SystemError
  | notFound
  | notDirectory
  | isDirectory
  | alreadyExists
  | nameTooLong
  | tooManyLinks
  | nulByte
  | noFileName
  deriving DecidableEq, Repr

def SystemError.message : SystemError → String
  | notFound      => "No such file or directory (os error 2)"
  | notDirectory  => "Not a directory (os error 20)"
  | isDirectory   => "Is a directory (os error 21)"
  | alreadyExists => "File exists (os error 17)"
  | nameTooLong   => "File name too long (os error 36)"
  | tooManyLinks  => "Too many levels of symbolic links (os error 40)"
  | nulByte       => "file name contained an unexpected NUL byte"
  | noFileName    => "path has no file name"

namespace FileSystem

structure Purpose where
  -- A link in the last place is followed.
  follows : Bool
  -- A file may be created, so that no slash may stand behind the name.
  creates : Bool

namespace Purpose

def status : Purpose := ⟨true, false⟩
def linkStatus : Purpose := ⟨false, false⟩
def write : Purpose := ⟨true, true⟩
def createNew : Purpose := ⟨false, true⟩

end Purpose

-- The names of a path in order. An empty one at the end marks a trailing slash.
def lookupPieces (text : String) : List String :=
  let cs := text.toList
  let names := ((cs.splitOn '/').map String.ofList).filter (· ≠ "")
  if names ≠ [] ∧ cs.getLast? = some '/' then names ++ [""] else names

def startOf (text : String) (current : Location) : Location :=
  if text.toList.head? = some '/' then [] else current

-- Walks from a directory along names. At a link the walk goes on with `onLink`, from the directory
-- in which the link's target is looked up, along the target's names and the rest.
def walkFrom (fs : FileSystem) (purpose : Purpose)
    (onLink : Location → List String → Except SystemError Location) (loc : Location) :
    List String → Except SystemError Location
  | [] => .ok loc
  | name :: rest =>
    if name = "" ∨ name = "." then
      walkFrom fs purpose onLink loc rest
    else if name = ".." then
      walkFrom fs purpose onLink loc.tail rest
    else if purpose.creates ∧ rest = [""] then
      .error .isDirectory
    else if name.utf8ByteSize > 255 then
      .error .nameTooLong
    else
      match fs.node? (name :: loc) with
      | none => if rest = [] then .ok (name :: loc) else .error .notFound
      | some (.directory _) => walkFrom fs purpose onLink (name :: loc) rest
      | some (.file _) => if rest = [] then .ok (name :: loc) else .error .notDirectory
      | some (.link target) =>
        if rest = [] ∧ ¬ purpose.follows then .ok (name :: loc)
        else onLink (startOf target loc) (lookupPieces target ++ rest)

def walk (fs : FileSystem) (purpose : Purpose) : Nat → Location → List String →
    Except SystemError Location
  | 0 => walkFrom fs purpose fun _ _ => .error .tooManyLinks
  | links + 1 => walkFrom fs purpose (walk fs purpose links)

def maxLinks : Nat := 40

def maxPathBytes : Nat := 4095

def checkText (text : String) : Except SystemError Unit :=
  if '\x00' ∈ text.toList then .error .nulByte
  else if text = "" then .error .notFound
  else if text.utf8ByteSize > maxPathBytes then .error .nameTooLong
  else .ok ()

-- The location that a path leads to. There need not be a node, but there is always a directory that
-- has it or could have it.
def locate (fs : FileSystem) (purpose : Purpose) (p : Path) : Except SystemError Location := do
  checkText p.text
  walk fs purpose maxLinks (startOf p.text fs.current) (lookupPieces p.text)

-- The location of a directory to be made. A slash behind its name says nothing new.
def locateNewDirectory (fs : FileSystem) (p : Path) : Except SystemError Location := do
  checkText p.text
  walk fs .linkStatus maxLinks (startOf p.text fs.current)
    ((lookupPieces p.text).filter (· ≠ ""))

def pathTo (loc : Location) : Path :=
  ⟨"/" ++ "/".intercalate loc.reverse⟩

end FileSystem
end TarGuard
