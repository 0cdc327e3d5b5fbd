import FlowTyping.Text.Integer

/-!
# Command lines

A command line is words: a command, flags and arguments, in any order. A flag is written `--name`,
`--name=value` or `--name value`, and some have a letter: `-n`, `-nvalue`, `-n=value` or `-n value`. A
truth value may stay away; then it is true. Behind `--` all words are arguments.
-/

namespace FlowTyping.Command

/-- What a flag takes. -/
inductive FlagKind where
  | bool
  | int
  | text
  deriving DecidableEq, Repr

/-- A flag that a command knows. -/
structure Flag where
  name : String
  letter : Option Char := none
  kind : FlagKind
  deriving DecidableEq, Repr

/-- How errors name a flag. -/
def Flag.title (f : Flag) : String :=
  match f.letter with
  | some c => "-" ++ c.toString ++ ", --" ++ f.name
  | none => "--" ++ f.name

/-- A flag's value. -/
inductive Setting where
  | bool (value : Bool)
  | int (value : Int)
  | text (value : String)
  deriving DecidableEq, Repr

/-- What is wrong with the flags of a command line. -/
inductive FlagFault where
  | badForm (word : String)
  | unknown (name : String)
  | unknownLetter (letter : Char) (letters : String)
  | noValue (name : String)
  | noLetterValue (letter : Char) (letters : String)
  | badValue (flag : Flag) (value : String) (fault : Text.NumberFault)
  deriving DecidableEq, Repr

def FlagFault.message : FlagFault → String
  | .badForm word => "bad flag syntax: " ++ word
  | .unknown name => "unknown flag: --" ++ name
  | .unknownLetter letter letters =>
    "unknown shorthand flag: " ++ Text.quoteChar letter ++ " in -" ++ letters
  | .noValue name => "flag needs an argument: --" ++ name
  | .noLetterValue letter letters =>
    "flag needs an argument: " ++ Text.quoteChar letter ++ " in -" ++ letters
  | .badValue flag value fault =>
    "invalid argument " ++ Text.quoteText value ++ " for " ++ Text.quoteText flag.title ++ " flag: " ++
      fault.message (if flag.kind = .int then "strconv.ParseInt" else "strconv.ParseBool") value

/-- The flags and arguments of a command line. -/
structure Parsed where
  /-- What flags are set to, the last one first. -/
  settings : List (String × Setting) := []
  args : List String := []
  deriving Repr

namespace Parsed

def find? (p : Parsed) (name : String) : Option Setting := p.settings.lookup name

def bool? (p : Parsed) (name : String) : Option Bool :=
  match p.find? name with
  | some (.bool b) => some b
  | _ => none

def int? (p : Parsed) (name : String) : Option Int :=
  match p.find? name with
  | some (.int n) => some n
  | _ => none

def text? (p : Parsed) (name : String) : Option String :=
  match p.find? name with
  | some (.text s) => some s
  | _ => none

end Parsed

/-- Reads the value of a flag. -/
def Flag.read (f : Flag) (value : String) : Except FlagFault Setting :=
  match f.kind with
  | .bool => ((Text.readBool value).map Setting.bool).mapError (.badValue f value)
  | .int => ((Text.readAnyBase value).map Setting.int).mapError (.badValue f value)
  | .text => .ok (.text value)

/-- The settings with a flag's value. -/
def Parsed.set (p : Parsed) (f : Flag) (value : String) : Except FlagFault Parsed := do
  let v ← f.read value
  return { p with settings := (f.name, v) :: p.settings }

/-- A flag and the word that gives its value, if the flag cannot do without. -/
inductive Need where
  /-- The flags are set. -/
  | done (parsed : Parsed)
  /-- The next word is the value of a flag; without one there is a fault. -/
  | value (parsed : Parsed) (flag : Flag) (missing : FlagFault)

/-- Takes a word that begins with two dashes. -/
def takeLong (flags : List Flag) (p : Parsed) (word : String) : Except FlagFault Need := do
  let body := word.toList.drop 2
  if body.head? = some '-' || body.head? = some '=' then throw (.badForm word)
  let name := String.ofList (body.takeWhile (· ≠ '='))
  match flags.find? (·.name == name) with
  | none => throw (.unknown name)
  | some f =>
    match body.dropWhile (· ≠ '=') with
    | _ :: value => return .done (← p.set f (String.ofList value))
    | [] =>
      if f.kind = .bool then return .done (← p.set f "true")
      else return .value p f (.noValue name)

/-- What stands for a letter that is no flag: its first byte, as a character. -/
def firstByte (c : Char) : Char :=
  (c.toString.toUTF8.toList.head?.map fun b => Char.ofNat b.toNat).getD c

/-- Takes letters behind a dash. -/
def takeLetters (flags : List Flag) (p : Parsed) : List Char → Except FlagFault Need
  | [] => .ok (.done p)
  | c :: rest => do
    let letters := String.ofList (c :: rest)
    match flags.find? (·.letter = some c) with
    | none => throw (.unknownLetter (firstByte c) letters)
    | some f =>
      match rest with
      | '=' :: v :: value => return .done (← p.set f (String.ofList (v :: value)))
      | _ =>
        if f.kind = .bool then takeLetters flags (← p.set f "true") rest
        else if rest.isEmpty then return .value p f (.noLetterValue c letters)
        else return .done (← p.set f (String.ofList rest))

/-- Takes words one after the other. -/
def takeWords (flags : List Flag) (p : Parsed) : List String → Except FlagFault Parsed
  | [] => .ok p
  | word :: rest => do
    if !word.startsWith "-" || word = "-" then takeWords flags { p with args := p.args ++ [word] } rest
    else if word = "--" then return { p with args := p.args ++ rest }
    else
      let need ←
        if word.startsWith "--" then takeLong flags p word
        else takeLetters flags p (word.toList.drop 1)
      match need with
      | .done p => takeWords flags p rest
      | .value p f missing =>
        match rest with
        | [] => throw missing
        | value :: rest => takeWords flags (← p.set f value) rest

/-- The flags and arguments of words. -/
def parse (flags : List Flag) (words : List String) : Except FlagFault Parsed :=
  takeWords flags {} words

/-- Whether a word is a flag whose value is the next word. A letter of a flag has one byte. -/
def takesNext (flags : List Flag) (word : String) : Bool :=
  if word.toList.contains '=' then false
  else if word.startsWith "--" then
    !flags.any fun f => f.kind = .bool && "--" ++ f.name == word
  else
    match word.toList with
    | ['-', c] => c.toNat < 0x80 && !flags.any fun f => f.kind = .bool && f.letter = some c
    | _ => false

/-- The first word that is neither a flag nor the value of one, and the words without it. -/
def splitCommand (flags : List Flag) : List String → Option (String × List String)
  | [] => none
  | word :: rest =>
    if word = "--" then none
    else if word.startsWith "-" then
      if takesNext flags word then
        match rest with
        | value :: more =>
          (splitCommand flags more).map fun (command, words) => (command, word :: value :: words)
        | [] => none
      else (splitCommand flags rest).map fun (command, words) => (command, word :: words)
    else if word.isEmpty then (splitCommand flags rest).map fun (c, words) => (c, word :: words)
    else some (word, rest)

end FlowTyping.Command
