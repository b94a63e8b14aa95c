import TarGuard.Error
import TarGuard.Header.Text
import TarGuard.Limits
import TarGuard.Path.Lexical

namespace TarGuard.EntryPath

def contains (pattern : List Char) : List Char → Bool
  | [] => pattern.isEmpty
  | c :: cs => pattern.isPrefixOf (c :: cs) || contains pattern cs

def isPrintable (c : Char) : Bool :=
  c == '\t' || (' ' ≤ c && c ≤ '~')

def forbiddenSequences : List (List Char) :=
  ["../".toList, "..\\".toList, "//".toList, "\\\\".toList, ":\\".toList]

def forbiddenStarts : List Char :=
  ['/', '\\', '~']

-- Characters with a meaning to a shell; the fourth is the grave accent.
def shellCharacters : List Char :=
  [';', '&', '$', '\x60', '|']

def isSuspicious (cs : List Char) : Bool :=
  forbiddenSequences.any (contains · cs) ||
  cs.head?.any (· ∈ forbiddenStarts) ||
  cs.any (· ∈ shellCharacters)

def isAllowed (c : Char) : Bool :=
  c.isAlphanum || c == '-' || c == '_' || c == '.' || c == ' '

-- A component is short, has no dot at either end, no two dots in a row, and nothing special.
def IsSafeComponent (bound : UInt64) (component : String) : Prop :=
  let cs := component.toList
  cs ≠ [] ∧ component.utf8ByteSize ≤ bound.toNat ∧
  cs.head? ≠ some '.' ∧ cs.getLast? ≠ some '.' ∧ ¬ contains ['.', '.'] cs ∧
  cs.all isAllowed

instance (bound : UInt64) : DecidablePred (IsSafeComponent bound) :=
  fun component => by unfold IsSafeComponent; infer_instance

def dropTrailingSlash (cs : List Char) : List Char :=
  if cs.getLast? = some '/' then cs.dropLast else cs

def split (path : String) : List String :=
  ((dropTrailingSlash path.toList).splitOn '/').map String.ofList

def components (limits : Limits) (path : String) : Except ExtractError (List String) :=
  if path ≠ "" ∧ path.utf8ByteSize ≤ limits.pathLength.toNat ∧
      path.toList.all isPrintable ∧ ¬ isSuspicious path.toList ∧
      (split path).length ≤ limits.pathDepth.toNat ∧
      ∀ c ∈ split path, IsSafeComponent limits.componentLength c then
    .ok (split path)
  else
    .error .pathTraversal

def checkBelow (root candidate : Path) : Except ExtractError Unit :=
  if candidate.IsBelow root then .ok () else .error .pathTraversal

def resolve (limits : Limits) (root : Path) (path : String) : Except ExtractError Path := do
  let names ← components limits path
  let target := names.foldl (fun p name => p.join ⟨name⟩) root
  checkBelow root target
  return target

end TarGuard.EntryPath
