/-!
# Supplies of numbers

Labels and temporaries are numbered by a `Supply`, which hands out each number once until it is
started again.
-/

namespace TypedCore

abbrev LabelId := Nat

abbrev TempId := Nat

/-- The numbers below `next` are taken. -/
structure Supply where
  next : Nat := 0
deriving DecidableEq, Inhabited

namespace Supply

def fresh (s : Supply) : Nat × Supply := (s.next, ⟨s.next + 1⟩)

/-- Never hand out `n`, nor anything below it. -/
def reserve (s : Supply) (n : Nat) : Supply := ⟨max s.next (n + 1)⟩

end Supply

end TypedCore
