import TarGuard.FileSystem.Call
import TarGuard.Input.Detect

namespace TarGuard.Input

def bufferSize : Nat := 8192

def openFile (fs : FileSystem) (p : Path) (decoder : Decoder := unpack) :
    Except ExtractError Input :=
  match fs.status p with
  | .ok (.file f) => (ofBytes f.content .finished []).detect bufferSize decoder
  | .ok _ => .error .readFailed
  | .error _ => .error .openFailed

end TarGuard.Input
