import ModPackager.TypeScript.Grammar.Markup
import ModPackager.TypeScript.Grammar.Modules

/-!
# Tying the productions together

The productions of one level read their parts with those of the level below, and the lowest level
refuses everything. Entering a bracket passes a token and only a few productions, so a number of
levels proportional to the length of the source never runs out.
-/

namespace ModPackager.TypeScript

open Grammar

/-- The productions of a level. -/
def grammar : Nat → Grammar
  | 0, _ => Reader.refuse
  | level + 1, .expression => sequence (grammar level)
  | level + 1, .assignment => assignment (grammar level)
  | level + 1, .unary => unary (grammar level) (classFrom (grammar level) false)
  | level + 1, .callee => memberOrNew (grammar level) (classFrom (grammar level) false)
  | level + 1, .type => anyType (grammar level)
  | level + 1, .plainType => plainType (grammar level)
  | level + 1, .simpleType => simpleType (grammar level)
  | level + 1, .binding => bindingPattern (grammar level)
  | level + 1, .statement declares => statement (grammar level) declares
  | level + 1, .moduleItem => Grammar.moduleItem (grammar level)
  | level + 1, .markupElement => Grammar.markupElement (grammar level)

/-- Enough levels for a source of a given length. -/
def levelsFor (length : Nat) : Nat := 8 * length + 64

end ModPackager.TypeScript
