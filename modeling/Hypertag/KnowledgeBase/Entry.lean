import Hypertag.Text.Basic

/-!
# Entries

Something that can be documented: a name, and its description in Markdown.
-/

namespace Hypertag.KnowledgeBase

structure Entry where
  name : Text
  description : Text

end Hypertag.KnowledgeBase
