import QueryDoc.Text.Combining

/-!
# Hidden characters

A character is hidden when a reader of a text would not see it, or would see
it only as a change to its neighbour: control and formatting characters, white
space other than the plain space, characters for private use, code points
without a character, and combining marks.
-/
namespace QueryDoc

/-- Characters that steer how others are shown, and letters that stand for
nothing. -/
def formatRanges : List (Nat × Nat) :=
  [(0x00AD, 0x00AD), (0x0600, 0x0605), (0x061C, 0x061C), (0x06DD, 0x06DD), (0x070F, 0x070F),
   (0x0890, 0x0891), (0x08E2, 0x08E2), (0x115F, 0x1160), (0x180E, 0x180E), (0x200B, 0x200F),
   (0x202A, 0x202E), (0x2060, 0x2064), (0x2066, 0x206F), (0x3164, 0x3164), (0xFEFF, 0xFEFF),
   (0xFFA0, 0xFFA0), (0xFFF9, 0xFFFB), (0x110BD, 0x110BD), (0x110CD, 0x110CD), (0x13430, 0x1343F),
   (0x1BCA0, 0x1BCA3), (0x1D173, 0x1D17A), (0xE0001, 0xE0001), (0xE0020, 0xE007F)]

def isFormat (c : Char) : Bool := inRanges formatRanges c.toNat

/-- A code point whose meaning is left to private agreement. -/
def isPrivateUse (c : Char) : Bool :=
  inRanges
    [(0xE000, 0xF8FF), (0xF0000, 0xFFFFD), (0x100000, 0x10FFFD)] c.toNat

/-- A character that a reader does not see as it is. -/
def isHidden (c : Char) : Bool :=
  isControl c || (isSpace c && c != ' ') || isFormat c || isPrivateUse c || isUnassigned c ||
    isCombining c

end QueryDoc
