import Hypertag.Proofs.Extraction
import Hypertag.Proofs.Run

/-!
# No tag is in conflict with itself

One written declaration would have to be read twice, from two comments that overlap, and the
comments of a text do not. Nothing is claimed about what a query takes from a tree of another
language, other than that it would have to overlap as well.
-/

namespace Hypertag

namespace Tag

end Tag

namespace Workspace

end Workspace

namespace Sample

/-- Grammars that are given a block comment and, three units inside it, a nested one. -/
def nestedComments : Grammars where
  outline text := .mk .document 0 text.length []
  comments _ text := .ofSpans [⟨0, text.length⟩, ⟨3, text.length - 3⟩]
  foreign _ _ _ := []

def nesting : List Operation :=
  [.load, .scan { entries := [.directory "ws" [.directory "app" [.file "x.rs" "/* /* hx@a */ */",
    .file "y.rs" "/* /* hx@a */ */"]]] } (config .rust) "/ws"]

def nested : Workspace := Workspace.run nestedComments (.new log) nesting

end Sample

end Hypertag
