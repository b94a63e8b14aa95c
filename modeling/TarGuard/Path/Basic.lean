namespace TarGuard

-- Repeated and trailing slashes say nothing, nor does `.`, except as the start of a relative path.
-- `..` stays a component of its own.
@[ext]
structure Path where
  text : String
  deriving DecidableEq, Repr, Inhabited

inductive Component
  | root
  | here
  | up
  | name (text : String)
  deriving DecidableEq, Repr

namespace Component

def text : Component → String
  | root      => "/"
  | here      => "."
  | up        => ".."
  | name text => text

def ofPiece? : String → Option Component
  | ""   => none
  | "."  => none
  | ".." => some up
  | s    => some (name s)

end Component

namespace Path

def empty : Path := ⟨""⟩

def IsAbsolute (p : Path) : Prop :=
  p.text.toList.head? = some '/'

instance : DecidablePred IsAbsolute :=
  fun p => inferInstanceAs (Decidable (p.text.toList.head? = _))

def pieces (p : Path) : List String :=
  (p.text.toList.splitOn '/').map String.ofList

inductive Start
  | root
  | here
  | none
  deriving DecidableEq, Repr

def Start.components : Start → List Component
  | root => [.root]
  | here => [.here]
  | none => []

def split (p : Path) : Start × List String :=
  match p.pieces with
  | "" :: rest  => if p.IsAbsolute then (.root, rest) else (.none, rest)
  | "." :: rest => (.here, rest)
  | all         => (.none, all)

def components (p : Path) : List Component :=
  p.split.1.components ++ p.split.2.filterMap Component.ofPiece?

def assemble : Start → List String → Path
  | .root, pieces => ⟨"/" ++ "/".intercalate pieces⟩
  | .here, pieces => ⟨"/".intercalate ("." :: pieces)⟩
  | .none, pieces => ⟨"/".intercalate pieces⟩

def Alike (p q : Path) : Prop :=
  p.components = q.components

instance (p q : Path) : Decidable (p.Alike q) :=
  inferInstanceAs (Decidable (p.components = q.components))

def StartsWith (p base : Path) : Prop :=
  base.components <+: p.components

instance (p base : Path) : Decidable (p.StartsWith base) :=
  inferInstanceAs (Decidable (base.components <+: p.components))

-- An absolute path replaces what it is joined to.
def join (base p : Path) : Path :=
  if p.IsAbsolute then p
  else if base.text = "" ∨ base.text.toList.getLast? = some '/' then ⟨base.text ++ p.text⟩
  else ⟨base.text ++ "/" ++ p.text⟩

def ofComponents (cs : List Component) : Path :=
  cs.foldl (fun p c => p.join ⟨c.text⟩) empty

def fileName? (p : Path) : Option String :=
  match p.components.getLast? with
  | some (.name s) => some s
  | _ => none

def IsVoid (piece : String) : Bool :=
  piece == "" || piece == "."

-- The paths that end at one of some pieces, which are given last first, and the start itself.
def prefixesOf (start : Start) : List String → List Path
  | [] =>
    match start with
    | .root => [⟨"/"⟩]
    | .here => [⟨"."⟩, empty]
    | .none => [empty]
  | piece :: before =>
    if IsVoid piece then prefixesOf start before
    else assemble start (piece :: before).reverse :: prefixesOf start before

def parents (p : Path) : List Path :=
  (prefixesOf p.split.1 p.split.2.reverse).tail

def parent? (p : Path) : Option Path :=
  p.parents.head?

end Path
end TarGuard
