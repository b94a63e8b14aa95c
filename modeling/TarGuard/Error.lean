namespace TarGuard

inductive ExtractError
  | openFailed
  | readFailed
  | invalidHeader
  | invalidChecksum
  | directoryFailed
  | writeFailed
  | pathTraversal
  | fileTooLarge
  | archiveTooLarge
  | linkDetected
  | diskFull
  | interrupted
  deriving DecidableEq, Repr

namespace ExtractError

def message : ExtractError → String
  | openFailed      => "Failed to open TGZ file"
  | readFailed      => "Failed to read compressed data"
  | invalidHeader   => "Invalid TAR header format"
  | invalidChecksum => "TAR header checksum validation failed"
  | directoryFailed => "Failed to create directory"
  | writeFailed     => "Failed to write output file"
  | pathTraversal   => "Dangerous path detected (directory traversal attempt)"
  | fileTooLarge    => "File size exceeds maximum allowed size"
  | archiveTooLarge => "Archive exceeds maximum allowed size or file count"
  | linkDetected    => "Symlink or hard link detected (potential security risk)"
  | diskFull        => "No space left on device"
  | interrupted     => "Operation interrupted by user"

end ExtractError
end TarGuard
