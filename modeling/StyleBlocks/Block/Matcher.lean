import StyleBlocks.Template.Basic

/-!
# Which templates hold style text

A styling library has a **primary** function, a **secondary** method on its results and **helper**
functions. A template holds style text if its tag is a helper, a property or a call of the primary,
or a call of the secondary on one of these two. The primary by itself is no such tag.
-/

namespace StyleBlocks

/-- The names by which tags are recognised. -/
structure Matcher where
  /-- The name of the primary function. -/
  primary : Text := "styled".toList
  /-- The name of the secondary method. -/
  secondary : Text := "attrs".toList
  /-- The names of the helpers. -/
  helpers : List Text := ["keyframes", "createGlobalStyle", "css"].map String.toList
deriving DecidableEq, Repr, Inhabited

namespace Matcher

/-- Whether a tag is the primary function. -/
def isPrimary (m : Matcher) (t : Template.Tag) : Bool :=
  t = .identifier m.primary

/-- Whether a template with this tag holds style text. -/
def accepts (m : Matcher) : Template.Tag → Bool
  | .identifier name => m.helpers.contains name
  | .member object _ => m.isPrimary object
  | .call (.member object property) =>
    if property = m.secondary then
      match object with
      | .member inner _ | .call inner => m.isPrimary inner
      | _ => false
    else false
  | .call callee => m.isPrimary callee
  | .computed _ | .other => false

end Matcher

end StyleBlocks
