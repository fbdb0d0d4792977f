import Hypertag.Domain
import Hypertag.Path
import Hypertag.Text.Blank
import Hypertag.Value

/-!
# Project settings

Settings come from the client as a loose value. Reading checks their shape, checking makes them
fit for a project scan. The settings also say which domains a file belongs to.
-/

namespace Hypertag

/-- Settings of the right shape, the language still being any text. -/
structure Settings where
  lang : Text
  templateExt : Text
  templates : List Text
  jsTags : List Text
  backendTags : List Text

structure Config where
  lang : BackendLang
  templateExt : Text
  templates : List Text
  jsTags : List Text
  backendTags : List Text

inductive ConfigError where
  | missing
  | noTemplateExtension
  | unsupportedLanguage (lang : Text)
  deriving DecidableEq

def ConfigError.message : ConfigError → Text
  | missing => "Config is not found."
  | noTemplateExtension => "Template extension not found."
  | unsupportedLanguage lang =>
    "Language " ++ lang ++ " is not supported. Use one of: " ++
      Text.joinWith ", " (BackendLang.all.map BackendLang.name) ++ "."

/-- Directories in scan order, each list with the domain of its files. -/
def Domain.groups (templates scripts backend : List Text) : List (Domain × List Text) :=
  [(.template, templates), (.javascript, scripts), (.backend, backend)]

namespace Settings

/-- A list of directories; a missing one is empty. -/
def directories? (v : Value) (name : Text) : Option (List Text) :=
  match v.field? name with
  | none => some []
  | some list => list.texts?

/-- The settings in a value. Unknown fields are ignored, a wrong shape gives none. -/
def ofValue? (v : Value) : Option Settings := do
  let lang ← (v.field? "lang").bind Value.text?
  let templateExt ← (v.field? "template_ext").bind Value.text?
  let templates ← directories? v "templates"
  let jsTags ← directories? v "js_tags"
  let backendTags ← directories? v "backend_tags"
  return { lang, templateExt, templates, jsTags, backendTags }

/-- The directories in scan order. -/
def directoryGroups (s : Settings) : List (Domain × List Text) :=
  Domain.groups s.templates s.jsTags s.backendTags

/-- The settings with a supported language in place of a written one. -/
def withLang (s : Settings) (lang : BackendLang) : Config :=
  { lang
    templateExt := s.templateExt
    templates := s.templates
    jsTags := s.jsTags
    backendTags := s.backendTags }

/-- The extension is checked before the language. -/
def check (s : Option Settings) : Except ConfigError Config :=
  match s with
  | none => .error .missing
  | some s =>
    if s.templateExt.isEmpty || s.templateExt.any Text.isBlank then .error .noTemplateExtension
    else match BackendLang.ofName? s.lang with
      | none => .error (.unsupportedLanguage s.lang)
      | some lang => .ok (s.withLang lang)

end Settings

def BackendLang.hasExtension (lang : Option BackendLang) (ext : Text) : Bool :=
  lang.any (·.extension = ext)

/-- The domains of a file. Scripts are never anything else; a backend file is a template as well
when both share their extension. -/
def Domain.classify (lang : Option BackendLang) (templateExt : Text) (file : Text) : List Domain :=
  match Path.extension? file with
  | none => []
  | some ext =>
    if ext = "js" ∨ ext = "ts" then [.javascript]
    else if BackendLang.hasExtension lang ext then
      if ext = templateExt then [.backend, .template] else [.backend]
    else if ext = templateExt then [.template]
    else []

namespace Config

def classify (c : Config) (file : Text) : List Domain :=
  Domain.classify (some c.lang) c.templateExt file

/-- The configured directories in scan order. -/
def directoryGroups (c : Config) : List (Domain × List Text) :=
  Domain.groups c.templates c.jsTags c.backendTags

end Config

end Hypertag
