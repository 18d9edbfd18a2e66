/-
Malformed grammars: definitions that clash or refer to what does not exist, and productions that do
not fit the results of their rules. Only the last can depend on the input.
-/

namespace Packrat

/-- What is wrong with a grammar. -/
inductive GrammarError where
  | duplicateRule (rule : String)
  | unknownRule (rule : String)
  | duplicateProduction (rule : String)
  | productionWithoutRule (rule : String)
  | duplicateKind (kind : String)
  | unknownParent (kind parent : String)
  | productionWithoutKind (kind : String)
  | duplicateSkipper
  | duplicateOverride (rule : String)
  | overrideWithoutRule (rule : String)
  | duplicateStart
  | noStart
  | badPattern (pattern : List Char)
  | wrongFieldCount (rule : String) (expected found : Nat)
deriving DecidableEq

/-- The wording of a grammar error. -/
def GrammarError.message : GrammarError → String
  | .duplicateRule rule => "rule '" ++ rule ++ "' already defined"
  | .unknownRule rule => "undefined rule '" ++ rule ++ "'"
  | .duplicateProduction rule => "production already defined for rule '" ++ rule ++ "'"
  | .productionWithoutRule rule => "production for non-existent rule '" ++ rule ++ "'"
  | .duplicateKind kind => "node '" ++ kind ++ "' already defined"
  | .unknownParent kind parent => "node '" ++ kind ++ "' has non-existent parent '" ++ parent ++ "'"
  | .productionWithoutKind kind => "no node declared for production '" ++ kind ++ "'"
  | .duplicateSkipper => "default skipping parslet already set"
  | .duplicateOverride rule => "skipping override already set for rule '" ++ rule ++ "'"
  | .overrideWithoutRule rule => "skipping override for non-existent rule '" ++ rule ++ "'"
  | .duplicateStart => "starting symbol already set"
  | .noStart => "starting symbol not defined"
  | .badPattern pattern => "invalid regular expression /" ++ String.ofList pattern ++ "/"
  | .wrongFieldCount rule expected found =>
    "production '" ++ rule ++ "' takes " ++ toString expected ++ " fields but the rule produced " ++
      toString found

end Packrat
