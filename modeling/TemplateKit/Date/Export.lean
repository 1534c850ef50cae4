import TemplateKit.Data.Assign
import TemplateKit.Date.DateTime

/-!
# Dates in a data tree
-/

namespace TemplateKit.DateTime

def clockHour (d : DateTime) : Int :=
  if d.hour = 0 then 12 else if d.hour > 12 then d.hour - 12 else d.hour

/-- The offset as hours and minutes, for instance `+0100`. Seconds are cut off. -/
def offsetText (d : DateTime) : Bytes :=
  let minutes := (d.offset.tdiv 60).natAbs
  (if d.offset.tdiv 60 < 0 then '-' else '+') ::
    (Numeral.padded 2 (minutes / 60) ++ Numeral.padded 2 (minutes % 60))

/-- What is stored of a date, name by name. -/
def parts (d : DateTime) : List (Bytes × Bytes) :=
  [("sec", Numeral.paddedInt 2 d.second), ("min", Numeral.paddedInt 2 d.minute),
    ("24hour", Numeral.paddedInt 2 d.hour), ("hour", Numeral.ofInt d.clockHour),
    ("am", if d.hour < 12 then "1" else "0"), ("mday", Numeral.ofInt d.day),
    ("mon", Numeral.ofInt (d.month + 1).toInt32.toInt),
    ("year", Numeral.ofInt (d.year + 1900).toInt32.toInt),
    ("2yr", Numeral.paddedInt 2 (d.year.tmod 100)), ("wday", Numeral.ofInt d.weekday),
    ("tzoffset", d.offsetText)]

/-- Stores the parts of a date below a name, which is made if it is missing. -/
def store (d : DateTime) (root : Node) (name : Bytes) : Node × Except DataFault Unit :=
  match root.locate? [] name with
  | some there => Node.assignAll (some there.address) d.parts root
  | none =>
    match root.set name (some []) with
    | (root, .ok _) => Node.assignAll ((root.locate? [] name).map (·.address)) d.parts root
    | (root, .error e) => (root, .error e)

end TemplateKit.DateTime
