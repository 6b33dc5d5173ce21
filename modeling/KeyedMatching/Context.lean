import KeyedMatching.Config
import KeyedMatching.Signature

/-!
# What a computation may look up

A `Context` is the signature and the settings that a computation runs with. Reduction, unification
and type inference need not end on every term; they are cut off at some depth of recursion, and have
no answer when they are. Type inference is cut off at `limit`. Reduction and unification, which may
go one deeper with each definition that they unfold, are cut off at `Context.depth`. A limit that
suffices can be replaced by any larger one.
-/

namespace KeyedMatching

/-- The surroundings of a computation. -/
structure Context where
  signature : Signature := {}
  config : Config := {}
  /-- How deep a computation may recurse without unfolding a definition before it is cut off. -/
  limit : Nat := 100000

/-- How deep a computation that unfolds definitions may recurse: as far as `limit` before the first
unfolding, and again after each of the unfoldings that the settings allow. -/
def Context.depth (cx : Context) : Nat :=
  cx.limit * (cx.config.unfoldFuel + 1)

end KeyedMatching
