namespace CollationLint.Trace

def isBlank (c : Char) : Bool :=
  let n := c.toNat
  (0x09 ≤ n && n ≤ 0x0D) || n = 0x20 || n = 0x85 || n = 0xA0 || n = 0x1680
    || (0x2000 ≤ n && n ≤ 0x200A) || n = 0x2028 || n = 0x2029 || n = 0x202F || n = 0x205F || n = 0x3000

/-- The lines of a text without their ends. A line ends in a line feed, with or without a carriage return
before it, or where the text does; a carriage return that stands alone belongs to its line. -/
def lines : List Char → List (List Char)
  | [] => []
  | '\n' :: text => [] :: lines text
  | '\r' :: '\n' :: text => [] :: lines text
  | c :: text =>
    match lines text with
    | [] => [[c]]
    | line :: rest => (c :: line) :: rest

def trim (text : List Char) : List Char :=
  ((text.dropWhile isBlank).reverse.dropWhile isBlank).reverse

def separator : List Char := " <-- ".toList

def frames (text : List Char) : List (List Char) := ((lines text).map trim).filter (!·.isEmpty)

def flatten (text : String) : String := .ofList (separator.intercalate (frames text.toList))

def join (texts : List String) : String :=
  .ofList (separator.intercalate ((texts.map fun t => (flatten t).toList).filter (!·.isEmpty)))

end CollationLint.Trace
