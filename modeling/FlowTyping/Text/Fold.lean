/-!
# Names without case

Some names are the same whatever the case of their letters. Two characters beyond the basic alphabet
count as letters of it, since they have one in upper or lower case: the long s and the sign of kelvin.
-/

namespace FlowTyping.Text

/-- The lower case of a letter of the basic alphabet, or of a character that counts as one. -/
def foldChar (c : Char) : Char :=
  if c = 'ſ' then 's' else if c = '\u212A' then 'k' else c.toLower

/-- Whether a text is a name in lower case but for the case of its letters. -/
def isNamed (name text : String) : Bool := text.toList.map foldChar = name.toList

end FlowTyping.Text
