import Disguise.Text.Utf8

/-!
White space: the code points with the Unicode property White_Space, and the two ways of cutting a
text at them. A byte that is no UTF-8 is never white space.
-/
namespace Disguise.Blank

def isBlank (c : Nat) : Bool :=
  (9 ≤ c && c ≤ 13) || c = 0x20 || c = 0x85 || c = 0xA0 || c = 0x1680 ||
    (0x2000 ≤ c && c ≤ 0x200A) || c = 0x2028 || c = 0x2029 || c = 0x202F || c = 0x205F ||
    c = 0x3000

def isBlankPiece (p : Utf8.Piece) : Bool := p.code.any isBlank

def glue (ps : List Utf8.Piece) : Bytes := ps.flatMap (·.raw)

/-- Maximal runs of pieces that are not white space. -/
def wordsOf (word : List Utf8.Piece) : List Utf8.Piece → List Bytes
  | [] => if word.isEmpty then [] else [glue word.reverse]
  | p :: ps =>
    if isBlankPiece p then
      if word.isEmpty then wordsOf [] ps else glue word.reverse :: wordsOf [] ps
    else wordsOf (p :: word) ps

/-- The words of a text, cut at white space. -/
def words (s : Bytes) : List Bytes := wordsOf [] (Utf8.pieces s)

/-- A text without the white space at its two ends. -/
def trim (s : Bytes) : Bytes :=
  glue ((((Utf8.pieces s).dropWhile isBlankPiece).reverse.dropWhile isBlankPiece).reverse)

end Disguise.Blank
