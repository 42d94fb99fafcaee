namespace CollationLint

structure Location where
  file : String
  line : UInt32
  column : UInt32
  endLine : UInt32
  endColumn : UInt32
  deriving DecidableEq

namespace Location

def point (file : String) (line column : UInt32) : Location := ⟨file, line, column, line, column⟩

protected def compare (a b : Location) : Ordering :=
  compare a.file b.file
    |>.then (compare a.line b.line)
    |>.then (compare a.column b.column)
    |>.then (compare a.endLine b.endLine)
    |>.then (compare a.endColumn b.endColumn)

instance : Ord Location := ⟨Location.compare⟩

def display (l : Location) : String :=
  l.file ++ ":" ++ toString l.line ++ ":" ++ toString l.column

end Location

end CollationLint
