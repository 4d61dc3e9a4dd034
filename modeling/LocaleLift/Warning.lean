import LocaleLift.Text.Quoted

/-! Warnings: what is left alone although it looks like something to localize. -/
namespace LocaleLift

/-- Why something was left alone. -/
inductive Warning where
  /-- A component has a template already; another one begins at this offset. -/
  | extraTemplate (offset : Nat)
  /-- The set-up script is in a language that has no grammar here. -/
  | scriptLanguage (lang : Text)
  /-- The template is not written as markup. -/
  | templateLanguage (lang : Text)
  /-- The value of a bound attribute is not exactly one expression. -/
  | unparsedBinding (expression : Text)
  deriving DecidableEq, Repr

def Warning.message : Warning → Text
  | extraTemplate offset =>
    "Ignoring extra top-level <template> block at offset " ++ Text.ofNat offset
  | scriptLanguage lang =>
    "Leaving <script setup lang=" ++ lang.quoted ++ "> untouched: unsupported language"
  | templateLanguage lang =>
    "Leaving <template lang=" ++ lang.quoted ++ "> untouched: only HTML templates are rewritten"
  | unparsedBinding expression =>
    "Could not parse binding expression, left unchanged: " ++ expression

end LocaleLift
