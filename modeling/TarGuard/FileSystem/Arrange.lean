import TarGuard.Effect
import TarGuard.FileSystem.Directories

namespace TarGuard.FileSystem

-- File systems that are laid out node by node. What cannot be done is left out.

def withDirectory (fs : FileSystem) (p : Path) : FileSystem :=
  finalState (makeDirectories p) fs

def withParent (fs : FileSystem) (p : Path) : FileSystem :=
  match p.parent? with
  | some dir => fs.withDirectory dir
  | none => fs

def withFile (fs : FileSystem) (p : Path) (f : File) : FileSystem :=
  let fs := fs.withParent p
  match fs.createFile p f.mode with
  | .ok (loc, fs) => fs.put loc (.file f)
  | .error _ => fs

def withLink (fs : FileSystem) (p : Path) (target : String) : FileSystem :=
  let fs := fs.withParent p
  match fs.locate .linkStatus p with
  | .ok loc => if (fs.node? loc).isNone then fs.put loc (.link target) else fs
  | .error _ => fs

end TarGuard.FileSystem
