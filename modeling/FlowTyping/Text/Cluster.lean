import FlowTyping.Text.Mark
import FlowTyping.Text.Utf8

/-!
# Clusters

What a reader takes for one character may be several: a letter with its marks, a syllable of Hangul, a
flag of two letters, a family of pictures. A cluster is a longest such run at the front of a text.

* `Part.ofChar` sorts characters by how they join others.
* `Join.takes` decides whether a cluster goes on with a character.
* `clusterWidth` is the number of bytes of the first cluster of a text.
-/

namespace FlowTyping.Text

/-! ## Tables -/

/-- Characters besides the marks that extend the one before them. -/
def extenders : Ranges := #[
  (0x9be, 0x9be), (0x9d7, 0x9d7), (0xb3e, 0xb3e), (0xb57, 0xb57), (0xbbe, 0xbbe), (0xbd7, 0xbd7),
  (0xcc2, 0xcc2), (0xcd5, 0xcd6), (0xd3e, 0xd3e), (0xd57, 0xd57), (0xdcf, 0xdcf), (0xddf, 0xddf),
  (0x1b35, 0x1b35), (0x200c, 0x200c), (0x302e, 0x302f), (0xff9e, 0xff9f), (0x1133e, 0x1133e),
  (0x11357, 0x11357), (0x113b8, 0x113b8), (0x113c2, 0x113c2), (0x113c5, 0x113c5),
  (0x113c7, 0x113c9), (0x113cf, 0x113cf), (0x114b0, 0x114b0), (0x114bd, 0x114bd),
  (0x115af, 0x115af), (0x11930, 0x11930), (0x1d165, 0x1d165), (0x1d16e, 0x1d172),
  (0x1f3fb, 0x1f3ff), (0xe0020, 0xe007f)
]

/-- Controls and invisible characters, which stand alone; the two line ends are apart. -/
def controls : Ranges := #[
  (0x0, 0x9), (0xb, 0xc), (0xe, 0x1f), (0x7f, 0x9f), (0xad, 0xad), (0x61c, 0x61c),
  (0x180e, 0x180e), (0x200b, 0x200b), (0x200e, 0x200f), (0x2028, 0x202e), (0x2060, 0x206f),
  (0xfeff, 0xfeff), (0xfff0, 0xfffb), (0x13430, 0x1343f), (0x1bca0, 0x1bca3), (0x1d173, 0x1d17a),
  (0xe0000, 0xe001f), (0xe0080, 0xe00ff), (0xe01f0, 0xe0fff)
]

/-- Signs that belong to the character after them. -/
def forerunners : Ranges := #[
  (0x600, 0x605), (0x6dd, 0x6dd), (0x70f, 0x70f), (0x890, 0x891), (0x8e2, 0x8e2), (0xd4e, 0xd4e),
  (0x110bd, 0x110bd), (0x110cd, 0x110cd), (0x111c2, 0x111c3), (0x1193f, 0x1193f),
  (0x11941, 0x11941), (0x11a3a, 0x11a3a), (0x11a84, 0x11a89), (0x11d46, 0x11d46),
  (0x11f02, 0x11f02)
]

/-- Marks that take room of their own. -/
def spacingMarks : Ranges := #[
  (0x903, 0x903), (0x93b, 0x93b), (0x93e, 0x940), (0x949, 0x94c), (0x94e, 0x94f), (0x982, 0x983),
  (0x9bf, 0x9c0), (0x9c7, 0x9c8), (0x9cb, 0x9cc), (0xa03, 0xa03), (0xa3e, 0xa40), (0xa83, 0xa83),
  (0xabe, 0xac0), (0xac9, 0xac9), (0xacb, 0xacc), (0xb02, 0xb03), (0xb40, 0xb40), (0xb47, 0xb48),
  (0xb4b, 0xb4c), (0xbbf, 0xbbf), (0xbc1, 0xbc2), (0xbc6, 0xbc8), (0xbca, 0xbcc), (0xc01, 0xc03),
  (0xc41, 0xc44), (0xc82, 0xc83), (0xcbe, 0xcbe), (0xcc0, 0xcc1), (0xcc3, 0xcc4), (0xcc7, 0xcc8),
  (0xcca, 0xccb), (0xcf3, 0xcf3), (0xd02, 0xd03), (0xd3f, 0xd40), (0xd46, 0xd48), (0xd4a, 0xd4c),
  (0xd82, 0xd83), (0xdd0, 0xdd1), (0xdd8, 0xdde), (0xdf2, 0xdf3), (0xe33, 0xe33), (0xeb3, 0xeb3),
  (0xf3e, 0xf3f), (0xf7f, 0xf7f), (0x1031, 0x1031), (0x103b, 0x103c), (0x1056, 0x1057),
  (0x1084, 0x1084), (0x1715, 0x1715), (0x1734, 0x1734), (0x17b6, 0x17b6), (0x17be, 0x17c5),
  (0x17c7, 0x17c8), (0x1923, 0x1926), (0x1929, 0x192b), (0x1930, 0x1931), (0x1933, 0x1938),
  (0x1a19, 0x1a1a), (0x1a55, 0x1a55), (0x1a57, 0x1a57), (0x1a6d, 0x1a72), (0x1b04, 0x1b04),
  (0x1b3b, 0x1b3b), (0x1b3d, 0x1b41), (0x1b43, 0x1b44), (0x1b82, 0x1b82), (0x1ba1, 0x1ba1),
  (0x1ba6, 0x1ba7), (0x1baa, 0x1baa), (0x1be7, 0x1be7), (0x1bea, 0x1bec), (0x1bee, 0x1bee),
  (0x1bf2, 0x1bf3), (0x1c24, 0x1c2b), (0x1c34, 0x1c35), (0x1ce1, 0x1ce1), (0x1cf7, 0x1cf7),
  (0xa823, 0xa824), (0xa827, 0xa827), (0xa880, 0xa881), (0xa8b4, 0xa8c3), (0xa952, 0xa953),
  (0xa983, 0xa983), (0xa9b4, 0xa9b5), (0xa9ba, 0xa9bb), (0xa9be, 0xa9c0), (0xaa2f, 0xaa30),
  (0xaa33, 0xaa34), (0xaa4d, 0xaa4d), (0xaaeb, 0xaaeb), (0xaaee, 0xaaef), (0xaaf5, 0xaaf5),
  (0xabe3, 0xabe4), (0xabe6, 0xabe7), (0xabe9, 0xabea), (0xabec, 0xabec), (0x11000, 0x11000),
  (0x11002, 0x11002), (0x11082, 0x11082), (0x110b0, 0x110b2), (0x110b7, 0x110b8),
  (0x1112c, 0x1112c), (0x11145, 0x11146), (0x11182, 0x11182), (0x111b3, 0x111b5),
  (0x111bf, 0x111c0), (0x111ce, 0x111ce), (0x1122c, 0x1122e), (0x11232, 0x11233),
  (0x11235, 0x11235), (0x112e0, 0x112e2), (0x11302, 0x11303), (0x1133f, 0x1133f),
  (0x11341, 0x11344), (0x11347, 0x11348), (0x1134b, 0x1134d), (0x11362, 0x11363),
  (0x113b9, 0x113ba), (0x113ca, 0x113ca), (0x113cc, 0x113cd), (0x11435, 0x11437),
  (0x11440, 0x11441), (0x11445, 0x11445), (0x114b1, 0x114b2), (0x114b9, 0x114b9),
  (0x114bb, 0x114bc), (0x114be, 0x114be), (0x114c1, 0x114c1), (0x115b0, 0x115b1),
  (0x115b8, 0x115bb), (0x115be, 0x115be), (0x11630, 0x11632), (0x1163b, 0x1163c),
  (0x1163e, 0x1163e), (0x116ac, 0x116ac), (0x116ae, 0x116af), (0x116b6, 0x116b6),
  (0x11726, 0x11726), (0x1182c, 0x1182e), (0x11838, 0x11838), (0x11931, 0x11935),
  (0x11937, 0x11938), (0x1193d, 0x1193d), (0x11940, 0x11940), (0x11942, 0x11942),
  (0x119d1, 0x119d3), (0x119dc, 0x119df), (0x119e4, 0x119e4), (0x11a39, 0x11a39),
  (0x11a57, 0x11a58), (0x11a97, 0x11a97), (0x11b61, 0x11b61), (0x11b65, 0x11b65),
  (0x11b67, 0x11b67), (0x11c2f, 0x11c2f), (0x11c3e, 0x11c3e), (0x11ca9, 0x11ca9),
  (0x11cb1, 0x11cb1), (0x11cb4, 0x11cb4), (0x11d8a, 0x11d8e), (0x11d93, 0x11d94),
  (0x11d96, 0x11d96), (0x11ef5, 0x11ef6), (0x11f03, 0x11f03), (0x11f34, 0x11f35),
  (0x11f3e, 0x11f3f), (0x11f41, 0x11f41), (0x1612a, 0x1612c), (0x16f51, 0x16f87),
  (0x16ff0, 0x16ff1), (0x1d166, 0x1d166), (0x1d16d, 0x1d16d)
]

/-- Pictures and the places kept for more of them. -/
def pictures : Ranges := #[
  (0xa9, 0xa9), (0xae, 0xae), (0x203c, 0x203c), (0x2049, 0x2049), (0x2122, 0x2122),
  (0x2139, 0x2139), (0x2194, 0x2199), (0x21a9, 0x21aa), (0x231a, 0x231b), (0x2328, 0x2328),
  (0x2388, 0x2388), (0x23cf, 0x23cf), (0x23e9, 0x23f3), (0x23f8, 0x23fa), (0x24c2, 0x24c2),
  (0x25aa, 0x25ab), (0x25b6, 0x25b6), (0x25c0, 0x25c0), (0x25fb, 0x25fe), (0x2600, 0x2605),
  (0x2607, 0x2612), (0x2614, 0x2685), (0x2690, 0x2705), (0x2708, 0x2712), (0x2714, 0x2714),
  (0x2716, 0x2716), (0x271d, 0x271d), (0x2721, 0x2721), (0x2728, 0x2728), (0x2733, 0x2734),
  (0x2744, 0x2744), (0x2747, 0x2747), (0x274c, 0x274c), (0x274e, 0x274e), (0x2753, 0x2755),
  (0x2757, 0x2757), (0x2763, 0x2767), (0x2795, 0x2797), (0x27a1, 0x27a1), (0x27b0, 0x27b0),
  (0x27bf, 0x27bf), (0x2934, 0x2935), (0x2b05, 0x2b07), (0x2b1b, 0x2b1c), (0x2b50, 0x2b50),
  (0x2b55, 0x2b55), (0x3030, 0x3030), (0x303d, 0x303d), (0x3297, 0x3297), (0x3299, 0x3299),
  (0x1f000, 0x1f0ff), (0x1f10d, 0x1f10f), (0x1f12f, 0x1f12f), (0x1f16c, 0x1f171),
  (0x1f17e, 0x1f17f), (0x1f18e, 0x1f18e), (0x1f191, 0x1f19a), (0x1f1ad, 0x1f1e5),
  (0x1f201, 0x1f20f), (0x1f21a, 0x1f21a), (0x1f22f, 0x1f22f), (0x1f232, 0x1f23a),
  (0x1f23c, 0x1f23f), (0x1f249, 0x1f3fa), (0x1f400, 0x1f53d), (0x1f546, 0x1f64f),
  (0x1f680, 0x1f6ff), (0x1f774, 0x1f77f), (0x1f7d5, 0x1f7ff), (0x1f80c, 0x1f80f),
  (0x1f848, 0x1f84f), (0x1f85a, 0x1f85f), (0x1f888, 0x1f88f), (0x1f8ae, 0x1f8ff),
  (0x1f90c, 0x1f93a), (0x1f93c, 0x1f945), (0x1f947, 0x1faff), (0x1fc00, 0x1fffd)
]

/-- Leading consonants of Hangul. -/
def leads : Ranges := #[(0x1100, 0x115f), (0xa960, 0xa97c)]

/-- Vowels of Hangul. -/
def vowels : Ranges := #[(0x1160, 0x11a7), (0xd7b0, 0xd7c6)]

/-- Trailing consonants of Hangul. -/
def trails : Ranges := #[(0x11a8, 0x11ff), (0xd7cb, 0xd7fb)]

/-- The signs of six scripts of India that join a consonant to the next one. -/
def linkers : List Nat := [0x94d, 0x9cd, 0xacd, 0xb4d, 0xc4d, 0xd4d]

/-- The consonants of those scripts. -/
def consonants : Ranges := #[
  (0x915, 0x939), (0x958, 0x95f), (0x978, 0x97f), (0x995, 0x9a8), (0x9aa, 0x9b0), (0x9b2, 0x9b2),
  (0x9b6, 0x9b9), (0x9dc, 0x9dd), (0x9df, 0x9df), (0x9f0, 0x9f1), (0xa95, 0xaa8), (0xaaa, 0xab0),
  (0xab2, 0xab3), (0xab5, 0xab9), (0xaf9, 0xaf9), (0xb15, 0xb28), (0xb2a, 0xb30), (0xb32, 0xb33),
  (0xb35, 0xb39), (0xb5c, 0xb5d), (0xb5f, 0xb5f), (0xb71, 0xb71), (0xc15, 0xc28), (0xc2a, 0xc39),
  (0xc58, 0xc5a), (0xd15, 0xd3a)
]

/-! ## Parts -/

/-- How a character joins others. -/
inductive Part where
  | carriageReturn
  | lineFeed
  | control
  /-- A mark on the character before it. -/
  | extender
  /-- A mark that joins a consonant to the next one. -/
  | linker
  /-- The character that joins pictures. -/
  | joiner
  | spacingMark
  /-- A sign that belongs to the character after it. -/
  | forerunner
  /-- Half of a flag. -/
  | flag
  | picture
  | lead
  | vowel
  | trail
  /-- A syllable of Hangul without a trailing consonant. -/
  | openSyllable
  | closedSyllable
  | consonant
  | other
  deriving DecidableEq, Repr

/-- Whether a code point is half of a flag. -/
def isFlag (n : Nat) : Bool := 0x1f1e6 ≤ n && n ≤ 0x1f1ff

/-- How a character joins others. -/
def Part.ofChar (c : Char) : Part :=
  let n := c.toNat
  if n = 0x0d then .carriageReturn
  else if n = 0x0a then .lineFeed
  else if 0x20 ≤ n && n < 0x7f then .other
  else if n = 0x200d then .joiner
  else if controls.has n then .control
  else if linkers.contains n then .linker
  else if marks.has n || extenders.has n then .extender
  else if spacingMarks.has n then .spacingMark
  else if forerunners.has n then .forerunner
  else if isFlag n then .flag
  else if pictures.has n then .picture
  else if leads.has n then .lead
  else if vowels.has n then .vowel
  else if trails.has n then .trail
  else if 0xac00 ≤ n && n ≤ 0xd7a3 then if (n - 0xac00) % 28 = 0 then .openSyllable else .closedSyllable
  else if consonants.has n then .consonant
  else .other

/-- How a symbol joins others; a stray byte does not. -/
def Part.ofSym : Sym → Part
  | .char c => .ofChar c
  | .stray _ => .other

/-! ## Clusters -/

/-- What the end of a cluster can be joined to. -/
structure Join where
  last : Part
  /-- It ends in the first half of a flag. -/
  halfFlag : Bool := false
  /-- It ends in a picture with marks on it, perhaps with a joiner last. -/
  picture : Bool := false
  /-- It ends in a consonant with marks on it. -/
  consonant : Bool := false
  /-- One of those marks joins it to the next consonant. -/
  linked : Bool := false
  deriving DecidableEq, Repr

namespace Join

/-- A cluster of one character. -/
def start (p : Part) : Join :=
  { last := p, halfFlag := p = .flag, picture := p = .picture, consonant := p = .consonant }

/-- A cluster with one more character. -/
def push (j : Join) (p : Part) : Join :=
  match p with
  | .extender => { j with last := p, picture := j.picture && j.last ≠ .joiner }
  | .linker => { j with last := p, picture := j.picture && j.last ≠ .joiner, linked := j.consonant }
  | .joiner => { j with last := p, picture := j.picture && j.last ≠ .joiner }
  | .flag => { start p with halfFlag := !j.halfFlag }
  | _ => start p

/-- Whether a cluster goes on with a character. -/
def takes (j : Join) (p : Part) : Bool :=
  match j.last, p with
  | .carriageReturn, .lineFeed => true
  | .carriageReturn, _ | .lineFeed, _ | .control, _ => false
  | _, .carriageReturn | _, .lineFeed | _, .control => false
  | .lead, .lead | .lead, .vowel | .lead, .openSyllable | .lead, .closedSyllable => true
  | .openSyllable, .vowel | .openSyllable, .trail | .vowel, .vowel | .vowel, .trail => true
  | .closedSyllable, .trail | .trail, .trail => true
  | _, .extender | _, .linker | _, .joiner | _, .spacingMark => true
  | .forerunner, _ => true
  | _, .consonant => j.linked
  | .joiner, .picture => j.picture
  | .flag, .flag => j.halfFlag
  | _, _ => false

end Join

/-- Number of bytes at the front of a text with which a cluster goes on. -/
def clusterRest (j : Join) (bytes : Bytes) : Nat :=
  match bytes with
  | [] => 0
  | b :: rest =>
    match next? (b :: rest) with
    | none => 0
    | some (s, width) =>
      let p := Part.ofSym s
      if j.takes p then width + clusterRest (j.push p) (rest.drop (width - 1)) else 0
termination_by bytes.length
decreasing_by rw [List.length_drop, List.length_cons]; omega

/-- Number of bytes of the first cluster of a text. -/
def clusterWidth (bytes : Bytes) : Nat :=
  match next? bytes with
  | none => 0
  | some (s, width) => width + clusterRest (.start (.ofSym s)) (bytes.drop width)

end FlowTyping.Text
