/-!
Stretches of a list given by their two ends: the positions from `start` on and before `stop`.
-/
namespace ExplicitNull

structure Interval where
  start : Nat
  stop : Nat
  deriving DecidableEq, Repr

def Interval.slice {α : Type} (r : Interval) (xs : List α) : List α :=
  (xs.drop r.start).take (r.stop - r.start)

end ExplicitNull
