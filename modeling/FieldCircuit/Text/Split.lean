/-!
# Splitting text

Lines, words and comments over `List Char`. A carriage return before a newline is an ordinary
blank, so it needs no rule of its own: every reader trims its lines.
-/

namespace FieldCircuit.Text

/-- White space, as the Unicode property `White_Space` lists it. -/
def isBlank (c : Char) : Bool :=
  let n := c.toNat
  (0x09 ≤ n && n ≤ 0x0D) || n == 0x20 || n == 0x85 || n == 0xA0 || n == 0x1680 ||
    (0x2000 ≤ n && n ≤ 0x200A) || n == 0x2028 || n == 0x2029 || n == 0x202F || n == 0x205F ||
    n == 0x3000

/-- The pieces between the characters that satisfy `p`, empty pieces included. -/
def pieces (p : Char → Bool) : List Char → List (List Char)
  | [] => [[]]
  | c :: cs =>
    if p c then [] :: pieces p cs
    else match pieces p cs with
      | [] => [[c]]
      | w :: ws => (c :: w) :: ws

/-- The text before and the text after the first character that satisfies `p`. -/
def cut? (p : Char → Bool) : List Char → Option (List Char × List Char)
  | [] => none
  | c :: cs => if p c then some ([], cs) else (cut? p cs).map fun (l, r) => (c :: l, r)

def lines (cs : List Char) : List (List Char) := pieces (· == '\n') cs

/-- The maximal runs of characters that are not blank. -/
def words (cs : List Char) : List (List Char) := (pieces isBlank cs).filter (!·.isEmpty)

def trimStart (cs : List Char) : List Char := cs.dropWhile isBlank

def trimEnd (cs : List Char) : List Char := (cs.reverse.dropWhile isBlank).reverse

def trim (cs : List Char) : List Char := trimEnd (trimStart cs)

/-- A line without its comment, which starts at the first `#`. -/
def uncomment (cs : List Char) : List Char := cs.takeWhile (· != '#')

end FieldCircuit.Text
