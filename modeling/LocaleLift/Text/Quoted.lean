import LocaleLift.Text.Hex
import LocaleLift.Text.Printable

/-! Texts in quotes, as messages show them. -/
namespace LocaleLift.Text

private def showPoint (quote : CodePoint) (c : CodePoint) : Text :=
  if c = quote || c = .scalar '\\' then [.scalar '\\', c]
  else if c = .scalar '\t' then "\\t"
  else if c = .scalar '\n' then "\\n"
  else if c = .scalar '\r' then "\\r"
  else if c.isPrintable then [c]
  else if c.toNat < 0x100 then "\\x" ++ hex 2 c.toNat
  else if c.toNat < 0x10000 then "\\u" ++ hex 4 c.toNat
  else "\\U" ++ hex 8 c.toNat

/-- A text in single quotes, or in double quotes if it holds single ones only. What is not
visible is written by its number. -/
def quoted (t : Text) : Text :=
  let quote : CodePoint :=
    if t.contains (.scalar '\x27') && !t.contains (.scalar '\x22') then .scalar '\x22'
    else .scalar '\x27'
  quote :: t.flatMap (showPoint quote) ++ [quote]

end LocaleLift.Text
