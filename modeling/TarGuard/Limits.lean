import TarGuard.Text.Blank
import TarGuard.Text.Decimal

namespace TarGuard

-- Sizes and lengths are in bytes, the depth in components, and `files` counts all records.
@[ext]
structure Limits where
  fileSize : UInt64 := 100 * 1024 * 1024
  totalSize : UInt64 := 500 * 1024 * 1024
  files : UInt64 := 10000
  pathDepth : UInt64 := 20
  componentLength : UInt64 := 255
  pathLength : UInt64 := 4096
  deriving DecidableEq, Repr, Inhabited

namespace Limits

inductive Field
  | fileSize
  | totalSize
  | files
  | pathDepth
  | componentLength
  | pathLength
  deriving DecidableEq, Repr

namespace Field

def all : List Field :=
  [fileSize, totalSize, files, pathDepth, componentLength, pathLength]

def name : Field → String
  | fileSize        => "max_file_size"
  | totalSize       => "max_total_size"
  | files           => "max_files"
  | pathDepth       => "max_path_depth"
  | componentLength => "max_component_len"
  | pathLength      => "max_path_len"

def variableName : Field → String
  | fileSize        => "SAFE_TGZ_MAX_FILE_SIZE"
  | totalSize       => "SAFE_TGZ_MAX_TOTAL_SIZE"
  | files           => "SAFE_TGZ_MAX_FILES"
  | pathDepth       => "SAFE_TGZ_MAX_PATH_DEPTH"
  | componentLength => "SAFE_TGZ_MAX_COMPONENT_LENGTH"
  | pathLength      => "SAFE_TGZ_MAX_PATH_LENGTH"

end Field

def get (l : Limits) : Field → UInt64
  | .fileSize        => l.fileSize
  | .totalSize       => l.totalSize
  | .files           => l.files
  | .pathDepth       => l.pathDepth
  | .componentLength => l.componentLength
  | .pathLength      => l.pathLength

def ofFields (value : Field → UInt64) : Limits where
  fileSize        := value .fileSize
  totalSize       := value .totalSize
  files           := value .files
  pathDepth       := value .pathDepth
  componentLength := value .componentLength
  pathLength      := value .pathLength

structure ZeroField where
  field : Field
  deriving DecidableEq, Repr

def ZeroField.message (e : ZeroField) : String :=
  e.field.name ++ " must be greater than zero"

def validate (l : Limits) : Except ZeroField Limits :=
  match Field.all.find? (l.get · = 0) with
  | some field => .error ⟨field⟩
  | none => .ok l

def setting (lookup : String → Option String) (field : Field) : UInt64 :=
  match lookup field.variableName with
  | some text => (Decimal.read? (Blank.trim text.toList)).getD (get {} field)
  | none => get {} field

def ofEnvironment (lookup : String → Option String) : Except ZeroField Limits :=
  (ofFields (setting lookup)).validate

end Limits
end TarGuard
