/-! # UTF-16 code units

`units s` is the text `s` as the code units that UTF-16 writes for it, so that a text has the
same units whichever tool stored it. -/

namespace BehaviorTree.Text

/-- The code units of one character: its own number below `U+10000`, else a surrogate pair. -/
def charUnits (c : Char) : List UInt16 :=
  let n := c.toNat
  if n < 0x10000 then [n.toUInt16]
  else
    let offset := n - 0x10000
    [(0xD800 + offset / 0x400).toUInt16, (0xDC00 + offset % 0x400).toUInt16]

/-- The code units of a text, in order. -/
def units (s : String) : List UInt16 := s.toList.flatMap charUnits

@[simp] theorem units_empty : units "" = [] := rfl

end BehaviorTree.Text
