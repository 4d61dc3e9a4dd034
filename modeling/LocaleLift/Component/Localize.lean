import LocaleLift.Component.Block
import LocaleLift.Markup.Words
import LocaleLift.Script.Localize

/-! Localizing the template and the set-up script of a component. -/
namespace LocaleLift.Component

/-- The dialect of a script in the language that its block names. -/
def dialectOf? : Option Text → Option Dialect
  | none => some .javascript
  | some lang =>
    if lang = "js" || lang = "jsx" then some .javascript
    else if lang = "ts" then some .typescript
    else if lang = "tsx" then some .tsx
    else none

/-- A range of a text and the text to put in its place. -/
structure Replacement where
  start : Nat
  stop : Nat
  text : Text
  deriving DecidableEq, Repr

def Replacement.ofBlock (b : Block) (text : Text) : Replacement :=
  ⟨b.start, b.stop, text⟩

def splice (text : Text) (rs : List Replacement) : Text :=
  (rs.mergeSort fun a b => b.start ≤ a.start).foldl
    (fun t r => t.take r.start ++ r.text ++ t.drop r.stop) text

variable [Script.Parser]

/-- Localize the set-up script, if it has content in a language that can be localized. -/
def localizeSetup (scope : Scope) (l : Layout) : Extract (List Replacement) := do
  match l.scriptSetup with
  | none => return []
  | some b =>
    if Text.isBlank b.content then return []
    match dialectOf? b.lang with
    | none =>
      Extract.warn (.scriptLanguage (b.lang.getD []))
      return []
    | some d =>
      return [.ofBlock b
        (← Script.localize d (Script.Style.ofDialect d scope "\x22" true true) b.content)]

/-- Whether a template is written as markup, which it is if it names no other language. -/
def isMarkup (b : Block) : Bool :=
  b.lang == none || b.lang == some "html"

def isLocalizable (b : Block) : Bool :=
  !Text.isBlank b.content && isMarkup b

/-- Localize the template, if it has content and is written as markup. -/
def localizeTemplate (scope : Scope) (l : Layout) : Extract (List Replacement) := do
  match l.template with
  | none => return []
  | some b =>
    if isLocalizable b then return [.ofBlock b (← Markup.localize scope b.content)]
    if !isMarkup b && !Text.isBlank b.content then
      Extract.warn (.templateLanguage (b.lang.getD []))
    return []

/-- Localize a component. All else than the contents of the template and of the set-up script stays
as it is. -/
def localize (scope : Scope) (text : Text) : Extract Text := do
  let l := layout text
  l.extraTemplates.forM fun offset => Extract.warn (.extraTemplate offset)
  let script ← localizeSetup scope l
  let template ← localizeTemplate scope l
  return splice text (script ++ template)

end LocaleLift.Component
