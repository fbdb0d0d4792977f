import Hypertag.Text.Basic

/-!
# Completion items

What is offered at the cursor. The numbers of the kinds are those of the language server protocol.
-/

namespace Hypertag

inductive CompletionKind where
  | property
  | value
  | reference
  deriving DecidableEq

def CompletionKind.code : CompletionKind → Nat
  | property => 10
  | value => 12
  | reference => 18

/-- Documentation is Markdown. Items with a sort text are shown in its order. -/
structure CompletionItem where
  label : Text
  kind : CompletionKind
  detail : Text
  documentation : Option Text
  sortText : Option Text

end Hypertag
