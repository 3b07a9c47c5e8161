/-!
# Blank characters

A character is blank when it has the Unicode property `White_Space`. These are the twenty-five
characters that separate words or lines: the ASCII blanks, the next-line and no-break characters,
the spaces of fixed width, the two separators of lines and paragraphs, and the ideographic space.
-/

namespace TreeDelta.Text

/-- The first and last code points of the ranges of blank characters. -/
def blankRanges : List (Nat × Nat) :=
  [(0x9, 0xD), (0x20, 0x20), (0x85, 0x85), (0xA0, 0xA0), (0x1680, 0x1680), (0x2000, 0x200A),
    (0x2028, 0x2029), (0x202F, 0x202F), (0x205F, 0x205F), (0x3000, 0x3000)]

/-- Whether a code point lies in one of a list of ranges. -/
def inRanges (ranges : List (Nat × Nat)) (codePoint : Nat) : Bool :=
  ranges.any fun (first, last) => first ≤ codePoint && codePoint ≤ last

/-- Whether a character separates words or lines. -/
def isBlank (c : Char) : Bool := inRanges blankRanges c.toNat

/-- Whether a text holds a blank character. -/
def hasBlank (text : String) : Bool := text.toList.any isBlank

end TreeDelta.Text
