import Downlevel.Tree.Walk

/-!
# `Names`: a supply of fresh names

A supply remembers every name in use. A fresh name is the hint with an underscore in front, followed if
need be by the first number from two on that makes it new.
-/

namespace Downlevel

/-- The names in use. -/
structure NameSupply where
  used : List String
  deriving Inhabited

namespace NameSupply

/-- All names of identifiers in a tree. -/
def ofTree (t : Tree) : NameSupply where
  used := t.nodes.filterMap fun n =>
    if n.isTypeIn ["Identifier", "JSXIdentifier"] then n.name? else none

/-- Remembers a name. -/
def reserve (s : NameSupply) (name : String) : NameSupply := ⟨name :: s.used⟩

/-- The name that a hint stands for: it starts with an underscore. -/
def base (hint : String) : String :=
  match hint.toList with
  | '_' :: _ => hint
  | _ => "_" ++ hint

/-- The `n`-th candidate: the base itself, then the base with two, three and so on. -/
def candidate (base : String) (n : Nat) : String := if n = 0 then base else base ++ toString (n + 1)

/-- The first candidate from the `n`-th on that is not used, among `fuel` of them. -/
def firstUnused (used : List String) (base : String) : Nat → Nat → String
  | 0, n => candidate base n
  | fuel + 1, n =>
    if used.contains (candidate base n) then firstUnused used base fuel (n + 1)
    else candidate base n

/-- A name that is not in use. One more candidate than there are names in use is always enough. -/
def fresh (s : NameSupply) (hint : String) : String × NameSupply :=
  let name := firstUnused s.used (base hint) s.used.length 0
  (name, s.reserve name)

end NameSupply
end Downlevel
