import LocaleLift.Json.Write

/-! JSON on one line of bounded length. -/
namespace LocaleLift

def Text.cutMark : Text := "…(truncated)"

/-- A text, cut if it is longer than a limit. A negative limit cuts so much from the end. -/
def Text.cut (limit : Int) (t : Text) : Text :=
  if (t.length : Int) ≤ limit then t
  else t.take (if limit < 0 then (t.length + limit).toNat else limit.toNat) ++ Text.cutMark

/-- The length of a line of JSON if none is asked for. -/
def JsonValue.lineLimit : Int := 1200

/-- A value on one line, cut if it is longer than a limit. -/
def JsonValue.compact (limit : Int) (v : JsonValue) : Text :=
  Text.cut limit (v.write .compact)

end LocaleLift
