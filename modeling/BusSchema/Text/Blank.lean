import BusSchema.Text.Beginning

/-!
# Blanks, lines and pieces of text

Text is taken apart as a list of characters.  A *blank* is a character with the Unicode property
White_Space, of which there are twenty-five; the schema notation itself only skips spaces and
tabs (`Statement.isSkipped`).
-/

namespace BusSchema

namespace Text

/-- The code point ranges of the Unicode property White_Space, in increasing order. -/
def blankRanges : List (Nat × Nat) :=
  [(0x0009, 0x000D), (0x0020, 0x0020), (0x0085, 0x0085), (0x00A0, 0x00A0), (0x1680, 0x1680),
    (0x2000, 0x200A), (0x2028, 0x2029), (0x202F, 0x202F), (0x205F, 0x205F), (0x3000, 0x3000)]

/-- A code point lies in one of the ranges, ends included. -/
def inRanges (ranges : List (Nat × Nat)) (c : Char) : Bool :=
  ranges.any fun (first, last) => first ≤ c.toNat && c.toNat ≤ last

/-- The character has the Unicode property White_Space. -/
def isBlank (c : Char) : Bool := inRanges blankRanges c

/-- The text without the blanks at both of its ends. -/
def trim (text : List Char) : List Char :=
  ((text.dropWhile isBlank).reverse.dropWhile isBlank).reverse

/-- The text without any blanks. -/
def dropBlanks (text : List Char) : List Char := text.filter (!isBlank ·)

/-- The pieces between the separators; there is always one more piece than separators. -/
def pieces (separator : Char) : List Char → List (List Char)
  | [] => [[]]
  | c :: rest =>
    if c = separator then [] :: pieces separator rest
    else
      match pieces separator rest with
      | [] => [[c]]
      | piece :: others => (c :: piece) :: others

/-- A line without the carriage return that belongs to its end. -/
def dropReturn (line : List Char) : List Char :=
  if line.getLast? = some '\r' then line.dropLast else line

/--
The lines of a text.  A line ends with a line feed or with a carriage return and a line feed, and
the end of the last line may be missing; a carriage return alone ends nothing.
-/
def lines (text : List Char) : List (List Char) :=
  match (pieces '\n' text).reverse with
  | [] => []
  | unended :: ended =>
    (ended.map dropReturn).reverse ++ (if unended = [] then [] else [unended])

/-- The pieces of a string between the separators. -/
def split (separator : Char) (text : String) : List String :=
  (pieces separator text.toList).map String.ofList

/-- The strings with a separator between each two of them. -/
def join (separator : String) (parts : List String) : String :=
  String.intercalate separator parts

/-- One text occurs inside another. -/
def occursIn (part : List Char) : List Char → Bool
  | [] => part.isEmpty
  | c :: rest => startsWith part (c :: rest) || occursIn part rest

end Text

end BusSchema
