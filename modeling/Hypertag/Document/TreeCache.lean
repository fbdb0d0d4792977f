import Hypertag.Domain
import Hypertag.Table
import Hypertag.Tag.Basic

/-!
# The tree cache

Syntax trees by file. Each update reads the whole text again and replaces the tree. A file keeps
the domain it was first read in. Without loaded grammars nothing is read.
-/

namespace Hypertag

structure CachedTree (τ : Type) where
  domain : Domain
  text : Text
  tree : τ

/-- `backend` is the backend language in force once grammars are loaded. -/
structure TreeCache (τ : Type) where
  backend : Option BackendLang
  entries : Table FileId (CachedTree τ)

namespace TreeCache

variable {τ : Type}

def empty (backend : Option BackendLang) : TreeCache τ := ⟨backend, Table.empty⟩

def size (c : TreeCache τ) : Nat := c.entries.size

def get? (c : TreeCache τ) (file : FileId) : Option (CachedTree τ) := c.entries.get? file

/-- Loads grammars, with `lang` as backend language. -/
def load (c : TreeCache τ) (lang : BackendLang) : TreeCache τ := { c with backend := some lang }

/-- Switches the backend language of loaded grammars. -/
def switch (c : TreeCache τ) (lang : BackendLang) : TreeCache τ :=
  { c with backend := c.backend.map fun _ => lang }

def clear (c : TreeCache τ) : TreeCache τ := { c with entries := Table.empty }

/-- The domain in which a text of a file will be read: that of the entry, else the given one. -/
def domainFor? (c : TreeCache τ) (file : FileId) (domain : Option Domain) : Option Domain :=
  match c.get? file with
  | some entry => some entry.domain
  | none => domain

/-- Reads a text for a file. Nothing happens without grammars, or when the file is new and comes
without a domain. -/
def upsert (parse : Grammar → Text → τ) (c : TreeCache τ) (file : FileId)
    (domain : Option Domain) (text : Text) : TreeCache τ × Option (CachedTree τ) :=
  match c.backend, c.domainFor? file domain with
  | some lang, some d =>
    let entry : CachedTree τ := ⟨d, text, parse (d.grammar lang) text⟩
    ({ c with entries := c.entries.set file entry }, some entry)
  | _, _ => (c, none)

end TreeCache

end Hypertag
