import TarGuard.Path.Basic

namespace TarGuard.Path

-- Follows one component from a place, which is given by its components, innermost first. Above the
-- root there is only the root.
def step : List Component → Component → List Component
  | place, .here            => place
  | .name _ :: place, .up   => place
  | [.root], .up            => [.root]
  | place, .up              => .up :: place
  | _, .root                => [.root]
  | place, .name s          => .name s :: place

def normalComponents (p : Path) : List Component :=
  (p.components.foldl step []).reverse

def normalize (p : Path) : Path :=
  ofComponents p.normalComponents

def dropCommon [DecidableEq α] : List α → List α → List α × List α
  | a :: as, b :: bs => if a = b then dropCommon as bs else (a :: as, b :: bs)
  | as, bs => (as, bs)

def relativeTo? (p base : Path) : Option Path :=
  if base.normalize.IsAbsolute ↔ p.normalize.IsAbsolute then
    let (climb, descend) := dropCommon base.normalize.components p.normalize.components
    some (ofComponents (climb.map (fun _ => .up) ++ descend))
  else
    none

def IsBelow (p base : Path) : Prop :=
  match p.relativeTo? base with
  | some way => way.text ≠ "" ∧ ¬ way.IsAbsolute ∧ way.components.head? ≠ some .up
  | none => False

instance (p base : Path) : Decidable (p.IsBelow base) := by
  unfold IsBelow
  split <;> infer_instance

def plainComponents (p : Path) : List Component :=
  match p.components with
  | .here :: cs => cs
  | cs => cs

-- The absolute path that `p` stands for in the directory `current`. `..` is kept, since only a file
-- system knows what it leads to, and so are a trailing slash and just two slashes at the start.
def absoluteIn (p current : Path) : Option Path :=
  if p.text = "" then none else
    let cs := p.text.toList
    let start : Path × List Component :=
      if p.IsAbsolute then
        if ['/', '/'] <+: cs ∧ ¬ ['/', '/', '/'] <+: cs then
          (⟨"//"⟩, p.components.drop 1)
        else (empty, p.components)
      else (current, p.plainComponents)
    let whole := start.2.foldl (fun q c => q.join ⟨c.text⟩) start.1
    some (if cs.getLast? = some '/' then whole.join empty else whole)

end TarGuard.Path
