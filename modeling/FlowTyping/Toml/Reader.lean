import FlowTyping.Toml.Scalar

/-!
# Reading TOML documents

A document is a sequence of lines, each a header in brackets or a key with its value; values in
brackets, braces or three quotes go on over several lines.

* `readLines` turns the characters of a document into its lines; what they define together is another
  question.
* `isAllowed` rules out control characters, which stand nowhere in a document.
-/

namespace FlowTyping.Toml

/-- Whether a character is a blank. -/
def isBlank (c : Char) : Bool := c = ' ' || c = '\t'

/-- Whether a character ends a line. -/
def isBreak (c : Char) : Bool := c = '\n' || c = '\r'

/-- Whether the characters may stand in a document: no control characters but tabs and line ends, and a
carriage return only before a line feed. -/
def isAllowed : List Char → Bool
  | [] => true
  | '\r' :: rest => rest.head? = some '\n' && isAllowed rest
  | c :: rest => (c = '\t' || c = '\n' || (0x20 ≤ c.toNat && c.toNat ≠ 0x7f)) && isAllowed rest

/-- Passes over blanks. -/
def skipBlanks (cs : List Char) : List Char := cs.dropWhile isBlank

/-- Passes over the rest of a line. -/
def skipLine (cs : List Char) : List Char := cs.dropWhile (!isBreak ·)

/-- Passes over blanks, line ends and comments. -/
def skipSpace : (fuel : Nat) → List Char → List Char
  | 0, cs => cs
  | n + 1, cs =>
    match cs.dropWhile fun c => isBlank c || isBreak c with
    | '#' :: rest => skipSpace n (skipLine rest)
    | rest => rest

/-- The escapes of one letter in a string. -/
def letterEscapes : List (Char × Char) :=
  [('b', '\x08'), ('t', '\t'), ('n', '\n'), ('f', '\x0c'), ('r', '\r'), ('e', '\x1b'), ('"', '"'),
    ('\\', '\\')]

/-- Number of digits behind the letter of an escape that gives a character by its number. -/
def codeWidth? (c : Char) : Option Nat :=
  if c = 'x' then some 2 else if c = 'u' then some 4 else if c = 'U' then some 8 else none

/-- The value of hexadecimal digits. -/
def hexNumber? (cs : List Char) : Option Nat :=
  cs.foldlM (fun n c => (Text.hexValue? c).map (n * 16 + ·)) 0

/-- Reads what follows a backslash. -/
def readEscape : List Char → Option (Char × List Char)
  | [] => none
  | c :: cs =>
    match codeWidth? c with
    | some width => do
      let n ← hexNumber? (cs.take width)
      if (cs.take width).length = width && Text.isScalar n then
        some (Char.ofNat n, cs.drop width)
      else none
    | none => (letterEscapes.lookup c).map (·, cs)

/-- Reads the rest of a string in double quotes. -/
def readBasic (done : List Char) : (fuel : Nat) → List Char → Option (String × List Char)
  | 0, _ => none
  | _ + 1, [] => none
  | n + 1, c :: cs =>
    if c = '"' then some (String.ofList done.reverse, cs)
    else if c = '\\' then do
      let (d, cs) ← readEscape cs
      readBasic (d :: done) n cs
    else if isBreak c then none
    else readBasic (c :: done) n cs

/-- Reads the rest of a string in single quotes, in which nothing is escaped. -/
def readLiteral (cs : List Char) : Option (String × List Char) :=
  let inside (c : Char) : Bool := c ≠ '\'' && !isBreak c
  match cs.dropWhile inside with
  | '\'' :: rest => some (String.ofList (cs.takeWhile inside), rest)
  | _ => none

/-- Whether the characters before a place, from the last to the first, are five quotes that no backslash
stands before. Another quote is one too many. -/
def fiveQuotes (quote : Char) (before : List Char) : Bool :=
  before.take 5 = List.replicate 5 quote && (quote = '\'' || before[5]? ≠ some '\\')

/-- Passes over a line end behind the three quotes that open a string. -/
def skipFirstBreak : List Char → List Char
  | '\r' :: '\n' :: rest => rest
  | '\n' :: rest => rest
  | cs => cs

/-- Reads the rest of a string in three double quotes. `before` holds what has been read of it, from the
last character to the first, `done` what it stands for. Up to two quotes may stand before the last
three; a backslash at the end of a line takes all blanks and line ends behind it away. -/
def readMultiBasic (before done : List Char) : (fuel : Nat) → List Char → Option (String × List Char)
  | 0, _ => none
  | _ + 1, [] => none
  | n + 1, '\\' :: cs =>
    let inside (c : Char) : Bool := isBlank c || isBreak c
    if cs.head?.any inside then
      if (cs.takeWhile inside).contains '\n' then
        readMultiBasic ((cs.takeWhile inside).reverse ++ '\\' :: before) done n (cs.dropWhile inside)
      else none
    else do
      let (d, rest) ← readEscape cs
      readMultiBasic ((cs.take (cs.length - rest.length)).reverse ++ '\\' :: before) (d :: done) n rest
  | n + 1, '"' :: '"' :: '"' :: rest =>
    if rest.head? = some '"' then
      if fiveQuotes '"' ('"' :: '"' :: '"' :: before) then none
      else readMultiBasic ('"' :: before) ('"' :: done) n ('"' :: '"' :: rest)
    else some (String.ofList done.reverse, rest)
  | n + 1, c :: cs => readMultiBasic (c :: before) (c :: done) n cs

/-- Reads the rest of a string in three single quotes. -/
def readMultiLiteral (before : List Char) : List Char → Option (String × List Char)
  | [] => none
  | '\'' :: '\'' :: '\'' :: rest =>
    if rest.head? = some '\'' then
      if fiveQuotes '\'' ('\'' :: '\'' :: '\'' :: before) then none
      else readMultiLiteral ('\'' :: before) ('\'' :: '\'' :: rest)
    else some (String.ofList before.reverse, rest)
  | c :: cs => readMultiLiteral (c :: before) cs

/-- Reads a string behind its first quote. -/
def readString (quote : Char) (cs : List Char) : Option (String × List Char) :=
  let fuel := cs.length + 1
  if quote = '"' then
    match cs with
    | '"' :: '"' :: rest => readMultiBasic [] [] fuel (skipFirstBreak rest)
    | _ => readBasic [] fuel cs
  else
    match cs with
    | '\'' :: '\'' :: rest => readMultiLiteral [] (skipFirstBreak rest)
    | _ => readLiteral cs

/-- Reads one part of a key. -/
def readPart (cs : List Char) : Option (String × List Char) :=
  match cs with
  | '"' :: rest => readBasic [] (rest.length + 1) rest
  | '\'' :: rest => readLiteral rest
  | _ =>
    let part := cs.takeWhile isBareChar
    if part.isEmpty then none else some (String.ofList part, cs.dropWhile isBareChar)

/-- Reads a key, and the blanks behind it: parts that are divided by points. -/
def readKey : (fuel : Nat) → List Char → Option (Key × List Char)
  | 0, _ => none
  | n + 1, cs => do
    let (part, rest) ← readPart (skipBlanks cs)
    match skipBlanks rest with
    | '.' :: rest =>
      let (parts, rest) ← readKey n rest
      return (part :: parts, rest)
    | rest => return ([part], rest)

/-- Reads a value of one word. -/
def readWord : List Char → Option (Scalar × List Char)
  | 't' :: 'r' :: 'u' :: 'e' :: rest => some (.bool true, rest)
  | 'f' :: 'a' :: 'l' :: 's' :: 'e' :: rest => some (.bool false, rest)
  | 'i' :: 'n' :: 'f' :: rest | 'n' :: 'a' :: 'n' :: rest => some (.float, rest)
  | cs => readNumber cs

mutual
/-- Reads a value. -/
def readExpr : (fuel : Nat) → List Char → Option (Expr × List Char)
  | 0, _ => none
  | n + 1, cs =>
    match skipBlanks cs with
    | '"' :: rest => (readString '"' rest).map fun (s, rest) => (.scalar (.text s), rest)
    | '\'' :: rest => (readString '\'' rest).map fun (s, rest) => (.scalar (.text s), rest)
    | '[' :: rest => (readItems n rest).map fun (vs, rest) => (.list vs, rest)
    | '\x7b' :: rest => (readEntries n rest).map fun (es, rest) => (.table es, rest)
    | rest => (readWord rest).map fun (s, rest) => (.scalar s, rest)

/-- Reads the items of a list behind its bracket or a comma. -/
def readItems : (fuel : Nat) → List Char → Option (List Expr × List Char)
  | 0, _ => none
  | n + 1, cs =>
    match skipSpace cs.length cs with
    | ']' :: rest => some ([], rest)
    | cs => do
      let (v, rest) ← readExpr n cs
      match skipSpace rest.length rest with
      | ',' :: rest =>
        let (vs, rest) ← readItems n rest
        return (v :: vs, rest)
      | ']' :: rest => return ([v], rest)
      | _ => none

/-- Reads the entries of a table behind its brace or a comma. -/
def readEntries : (fuel : Nat) → List Char → Option (List (Key × Expr) × List Char)
  | 0, _ => none
  | n + 1, cs =>
    match skipSpace cs.length cs with
    | '\x7d' :: rest => some ([], rest)
    | cs => do
      let (key, rest) ← readKey (n + 1) cs
      match rest with
      | '=' :: rest =>
        let (v, rest) ← readExpr n rest
        match skipSpace rest.length rest with
        | ',' :: rest =>
          let (es, rest) ← readEntries n rest
          return ((key, v) :: es, rest)
        | '\x7d' :: rest => return ([(key, v)], rest)
        | _ => none
      | _ => none
end

/-- Passes over the end of a line; `none` if anything but blanks and a comment is left on it. -/
def endLine (cs : List Char) : Option (List Char) :=
  match skipBlanks cs with
  | [] => some []
  | '#' :: rest => some (skipLine rest)
  | c :: rest => if isBreak c then some (c :: rest) else none

/-- Reads one line that defines something. -/
def readLine (cs : List Char) : Option (Line × List Char) :=
  let fuel := cs.length + 1
  match cs with
  | '[' :: '[' :: rest => do
    let (key, rest) ← readKey fuel rest
    match rest with
    | ']' :: ']' :: rest => return (.arrayHeader key, ← endLine rest)
    | _ => none
  | '[' :: rest => do
    let (key, rest) ← readKey fuel rest
    match rest with
    | ']' :: rest => return (.header key, ← endLine rest)
    | _ => none
  | cs => do
    let (key, rest) ← readKey fuel cs
    match rest with
    | '=' :: rest =>
      let (v, rest) ← readExpr fuel rest
      return (.pair key v, ← endLine rest)
    | _ => none

/-- Reads at most `fuel` lines that define something. -/
def readLinesUpTo : (fuel : Nat) → List Char → Option (List Line)
  | 0, _ => none
  | n + 1, cs =>
    match skipSpace cs.length cs with
    | [] => some []
    | cs => do
      let (line, rest) ← readLine cs
      return line :: (← readLinesUpTo n rest)

/-- The characters of a document without the mark of their encoding. -/
def skipMark : List Char → List Char
  | '\uFEFF' :: rest => rest
  | cs => cs

/-- Reads the lines of a document; `none` if it is malformed. -/
def readLines (text : String) : Option (List Line) :=
  let cs := skipMark text.toList
  if isAllowed cs then readLinesUpTo (cs.length + 1) cs else none

end FlowTyping.Toml
