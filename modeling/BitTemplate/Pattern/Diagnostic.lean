import BitTemplate.Diagnostic.Layout
import BitTemplate.Pattern.Error

/-!
Diagnostics of patterns: the wording of an error as the title, and its label below the span that it points to.
-/

namespace BitTemplate

/-- The diagnostic of an error in its pattern. -/
def PatternError.diagnostic (error : PatternError) (pattern : String) (color : Bool) : String :=
  Diagnostic.render error.message error.label pattern.toList error.span color

end BitTemplate
