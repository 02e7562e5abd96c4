import BusSchema.Schema.Definition

/-!
# Statements of the schema notation

Every line of a schema file that holds more than blanks and a comment is one statement: the
separator between request and response, a directive, or an attribute.  The notation skips spaces
and tabs between the parts of a statement, but none inside a type except spaces around an array
bound.  `Statement.read?` reads a whole line; numbers, names and literals are kept as written.
-/

namespace BusSchema

/-- A type as written, without its array bound. -/
inductive ScalarExpr
  /-- Padding of a number of bits. -/
  | padding (digits : String)
  | boolean
  | numeric (kind : ScalarKind) (digits : String)
  /-- A reference to another definition. -/
  | named (reference : String)
deriving DecidableEq

/-- An array bound as written. -/
inductive BoundExpr
  /-- A dynamic array of at most this many elements. -/
  | atMost (digits : String)
  /-- A dynamic array of fewer elements than this. -/
  | below (digits : String)
  /-- A static array of this many elements. -/
  | exactly (digits : String)
deriving DecidableEq

/-- A type as written. -/
inductive TypeExpr
  | scalar (type : ScalarExpr)
  | array (element : ScalarExpr) (bound : BoundExpr)
deriving DecidableEq

/-- A field or constant as written. -/
structure AttributeExpr where
  cast : CastMode
  type : TypeExpr
  name : Option String
  /-- What stands after the equals sign of a constant. -/
  literal : Option String
deriving DecidableEq

/-- A line as written. -/
inductive Statement
  /-- The line between the request and the response of a service. -/
  | separator
  | directive (name : String) (hasArgument : Bool)
  | member (attr : AttributeExpr)
deriving DecidableEq

namespace Statement

/-- What the notation skips between the parts of a statement. -/
def isSkipped (c : Char) : Bool := c = ' ' || c = '\t'

/-- The text after the spaces and tabs at its start. -/
def skip (text : List Char) : List Char := text.dropWhile isSkipped

/-- A letter, digit or underscore. -/
def isWordChar (c : Char) : Bool := c.isAlphanum || c = '_'

/-- A letter or underscore. -/
def isWordStart (c : Char) : Bool := c.isAlpha || c = '_'

/-- Splits off the longest run of characters of a class, which must not be empty. -/
def readRun? (inClass : Char → Bool) (text : List Char) : Option (String × List Char) :=
  match text.takeWhile inClass with
  | [] => none
  | run => some (String.ofList run, text.dropWhile inClass)

/-- Splits off a number. -/
def readDigits? (text : List Char) : Option (String × List Char) :=
  readRun? Char.isDigit text

/-- Splits off a name, which must not start with a digit. -/
def readName? (text : List Char) : Option (String × List Char) :=
  match text with
  | c :: _ => if isWordStart c then readRun? isWordChar text else none
  | [] => none

/-- Splits off a keyword. -/
def readKeyword? (keyword : String) (text : List Char) : Option (List Char) :=
  dropBeginning? keyword.toList text

/-- No letter, digit or underscore follows. -/
def endsWord : List Char → Bool
  | [] => true
  | c :: _ => !isWordChar c

/--
Splits words joined by single points off a text that starts inside a word.  A point belongs to
the words only if another word follows it.
-/
def spanReference : List Char → List Char × List Char
  | [] => ([], [])
  | c :: rest =>
    let continues := isWordChar c || (c = '.' && !endsWord rest)
    if continues then
      let (words, after) := spanReference rest
      (c :: words, after)
    else ([], c :: rest)

/-- Reads padding, such as `void3`. -/
def readPadding? (text : List Char) : Option (ScalarExpr × List Char) := do
  let afterKeyword ← readKeyword? "void" text
  let (digits, rest) ← readDigits? afterKeyword
  if endsWord rest then some (.padding digits, rest) else none

/-- Reads the boolean type. -/
def readBoolean? (text : List Char) : Option (ScalarExpr × List Char) := do
  let rest ← readKeyword? "bool" text
  if endsWord rest then some (.boolean, rest) else none

/-- Reads a numeric type of one kind, such as `uint8`. -/
def readNumeric? (kind : ScalarKind) (text : List Char) : Option (ScalarExpr × List Char) := do
  let afterKeyword ← readKeyword? kind.name text
  let (digits, rest) ← readDigits? afterKeyword
  if endsWord rest then some (.numeric kind digits, rest) else none

/-- Reads a reference to another definition. -/
def readReference? (text : List Char) : Option (ScalarExpr × List Char) :=
  if endsWord text then none
  else
    let (words, rest) := spanReference text
    some (.named (String.ofList words), rest)

/-- Reads a type without its array bound; what is no built-in type is a reference. -/
def readScalar? (text : List Char) : Option (ScalarExpr × List Char) :=
  readPadding? text <|> readBoolean? text <|> readNumeric? .unsigned text <|>
    readNumeric? .signed text <|> readNumeric? .float text <|> readReference? text

/-- The text after the spaces at its start. -/
def skipSpaces (text : List Char) : List Char := text.dropWhile (· = ' ')

/-- Reads a number with a sign in front of it, and spaces between the two. -/
def readDigitsAfter? (sign : String) (text : List Char) : Option (String × List Char) := do
  let rest ← readKeyword? sign text
  readDigits? (skipSpaces rest)

/-- Reads what stands between the brackets of an array. -/
def readBound? (text : List Char) : Option (BoundExpr × List Char) :=
  (readDigitsAfter? "<=" text).map (fun (digits, rest) => (.atMost digits, rest)) <|>
    (readDigitsAfter? "<" text).map (fun (digits, rest) => (.below digits, rest)) <|>
    (readDigits? text).map (fun (digits, rest) => (.exactly digits, rest))

/-- Reads the bracketed bound of an array. -/
def readBrackets? (text : List Char) : Option (BoundExpr × List Char) := do
  let inside ← readKeyword? "[" text
  let (bound, afterBound) ← readBound? (skipSpaces inside)
  let rest ← readKeyword? "]" (skipSpaces afterBound)
  some (bound, rest)

/-- Reads a type. -/
def readType? (text : List Char) : Option (TypeExpr × List Char) := do
  let (element, rest) ← readScalar? text
  match readBrackets? rest with
  | some (bound, rest) => some (.array element bound, rest)
  | none => some (.scalar element, rest)

/-- Reads a cast mode, which a space or tab has to follow. -/
def readCast? (mode : CastMode) (text : List Char) : Option (CastMode × List Char) :=
  match readKeyword? mode.name text with
  | some (c :: rest) => if isSkipped c then some (mode, c :: rest) else none
  | _ => none

/-- Reads the cast mode if there is one; types without one are saturated. -/
def splitCast (text : List Char) : CastMode × List Char :=
  (readCast? .saturated text <|> readCast? .truncated text).getD (.saturated, text)

/-- Reads the end of an attribute that starts with its name. -/
def readNamed? (cast : CastMode) (type : TypeExpr) (text : List Char) :
    Option AttributeExpr := do
  let (name, afterName) ← readName? text
  match skip afterName with
  | [] => some ⟨cast, type, some name, none⟩
  | '=' :: rest =>
    match skip rest with
    | [] => none
    | literal => some ⟨cast, type, some name, some (String.ofList literal)⟩
  | _ => none

/-- Reads a field or constant that takes up the whole text. -/
def readAttribute? (text : List Char) : Option AttributeExpr := do
  let (cast, afterCast) := splitCast text
  let (type, afterType) ← readType? (skip afterCast)
  match skip afterType with
  | [] => some ⟨cast, type, none, none⟩
  | named => readNamed? cast type named

/-- Reads a directive that takes up the whole text. -/
def readDirective? (text : List Char) : Option Statement := do
  let afterSign ← readKeyword? "@" text
  let (name, afterName) ← readName? (skip afterSign)
  some (.directive name !(skip afterName).isEmpty)

/-- Reads a whole line. -/
def read? (line : List Char) : Option Statement :=
  let text := skip line
  match readKeyword? "---" text with
  | some rest => if (skip rest).isEmpty then some .separator else none
  | none => readDirective? text <|> (readAttribute? text).map .member

end Statement

end BusSchema
