import Hypertag.Text.Basic

/-!
# Domains and grammars

A project file belongs to one lexical domain. Templates are read with the markup grammar,
scripts with the script grammar, backend files with the grammar of the configured language.
-/

namespace Hypertag

inductive Domain where
  | template
  | javascript
  | backend
  deriving DecidableEq

inductive BackendLang where
  | python
  | rust
  | go
  deriving DecidableEq

inductive Grammar where
  | markup
  | script
  | backend (lang : BackendLang)
  deriving DecidableEq

namespace BackendLang

def all : List BackendLang := [python, rust, go]

def name : BackendLang → Text
  | python => "python"
  | rust => "rust"
  | go => "go"

/-- The file extension of the language, without its dot. -/
def extension : BackendLang → Text
  | python => "py"
  | rust => "rs"
  | go => "go"

def ofName? (name : Text) : Option BackendLang := all.find? (·.name = name)

end BackendLang

namespace Domain

def name : Domain → Text
  | template => "template"
  | javascript => "javascript"
  | backend => "backend"

def ofName? (name : Text) : Option Domain :=
  [template, javascript, backend].find? (·.name = name)

/-- Whether files of the named domain may declare tags. Templates only use them. -/
def namedDeclaresTags (name : Text) : Bool := name ≠ template.name

def declaresTags : Domain → Bool
  | template => false
  | javascript => true
  | backend => true

/-- The grammar that reads a domain while `lang` is the backend language. -/
def grammar (lang : BackendLang) : Domain → Grammar
  | template => .markup
  | javascript => .script
  | backend => .backend lang

end Domain

def Grammar.name : Grammar → Text
  | markup => "html"
  | script => "javascript"
  | backend lang => lang.name

end Hypertag
