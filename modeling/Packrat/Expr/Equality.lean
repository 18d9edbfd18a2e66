/-
Equality of expressions is equality of structure, where fallbacks compare as trees do and matchers
from outside by their keys. The hash of an expression is built from the hashes of its parts.
-/
import Packrat.Expr.Basic
import Packrat.Tree.Equality

namespace Packrat

/-- Both absent, or both there and equal in content. -/
def sameFallback : Option Tree → Option Tree → Bool
  | none, none => true
  | some t, some u => t.same u
  | _, _ => false

namespace Expr

mutual

/-- Equal structure. -/
def same : Expr → Expr → Bool
  | .literal a, .literal b => a == b
  | .pattern p, .pattern q => p.source == q.source
  | .rule a, .rule b => a == b
  | .sequence as, .sequence bs => sameAll as bs
  | .merge as, .merge bs => sameAll as bs
  | .choice as, .choice bs => sameAll as bs
  | .repetition a bounds fallback, .repetition b bounds' fallback' =>
    bounds == bounds' && a.same b && sameFallback fallback fallback'
  | .ahead a, .ahead b => a.same b
  | .notAhead a, .notAhead b => a.same b
  | .omission a, .omission b => a.same b
  | .external k, .external l => k == l
  | _, _ => false

/-- Equal structure part by part. -/
def sameAll : List Expr → List Expr → Bool
  | [], [] => true
  | a :: as, b :: bs => a.same b && sameAll as bs
  | _, _ => false

end

instance : BEq Expr := ⟨same⟩

/-! ## Hashes -/

/-- What an optional bound writes to a hash. -/
def maxItems : Option Nat → List HashItem
  | none => [.number 0]
  | some n => [.number 1, .number n]

mutual

/-- The hash of an expression, given a hash of item lists. Each kind of expression starts from a
number of its own, so that different kinds with the same parts differ. -/
def hashWith (hasher : List HashItem → UInt64) : Expr → UInt64
  | .notAhead body => hasher [.number 11, .number (body.hashWith hasher).toNat]
  | .ahead body => hasher [.number 12, .number (body.hashWith hasher).toNat]
  | .pattern p => hasher [.number 15, .text p.source]
  | .literal text => hasher [.number 20, .text text]
  | .rule name => hasher [.number 25, .text name.toList]
  | .choice alternatives => hasher (.number 30 :: hashItemsOf hasher alternatives)
  | .sequence parts => hasher (.number 40 :: hashItemsOf hasher parts)
  | .omission body => hasher [.number 46, .number (body.hashWith hasher).toNat]
  | .merge parts => hasher (.number 53 :: hashItemsOf hasher parts)
  | .repetition body bounds (some fallback) =>
    hasher (.number 69 :: .number (body.hashWith hasher).toNat :: .number bounds.min ::
      maxItems bounds.max ++ fallback.hashItems)
  | .repetition body bounds none =>
    hasher (.number 87 :: .number (body.hashWith hasher).toNat :: .number bounds.min :: maxItems bounds.max)
  | .external key => hasher [.number 105, .number key]

/-- The hashes of some expressions, as items. -/
def hashItemsOf (hasher : List HashItem → UInt64) : List Expr → List HashItem
  | [] => []
  | e :: rest => .number (e.hashWith hasher).toNat :: hashItemsOf hasher rest

end

instance : Hashable Expr := ⟨hashWith hash⟩

end Expr

end Packrat
