import RegexUnroll.MaxDepth
import RegexUnroll.Rejection

/-!
# Depths read byte by byte

The literal of a depth can be checked without numbers of any size. `MaxDepth.ofBytes` rejects a text
of more than three bytes; it looks at the first character and at all bytes to see whether the text
is a numeral (`Numeral.isCanonicalInBytes`), and reads it as an 8-bit number that may overflow
(`readOctet?`).
-/

namespace RegexUnroll

/-- The bytes of a text in UTF-8. -/
def Text.bytes (t : Text) : List UInt8 := t.flatMap String.utf8EncodeChar

/-- Whether a byte is a digit in ASCII. -/
def isDigitByte (b : UInt8) : Bool := 48 ≤ b && b ≤ 57

/-- Whether a text is a numeral: the first character is a digit other than `0`, and all bytes are
digits. -/
def Numeral.isCanonicalInBytes (t : Text) : Bool :=
  t.head?.any (fun c => '1' ≤ c && c ≤ '9') && t.bytes.all isDigitByte

/-! ## Numbers of eight bits -/

/-- The product of two numbers, if it has eight bits. -/
def mulOctet? (a b : UInt8) : Option UInt8 :=
  if a.toNat * b.toNat < 256 then some (a * b) else none

/-- The sum of two numbers, if it has eight bits. -/
def addOctet? (a b : UInt8) : Option UInt8 :=
  if a.toNat + b.toNat < 256 then some (a + b) else none

/-- A number with one more digit, if the byte is a digit and the number has eight bits. -/
def pushDigit? (n b : UInt8) : Option UInt8 :=
  if isDigitByte b then do
    let tens ← mulOctet? n 10
    addOctet? tens (b - 48)
  else none

/-- The number of eight bits that bytes denote, in digits that may follow a plus sign. -/
def readOctet? (bytes : List UInt8) : Option UInt8 :=
  let digits := if bytes.head? = some 43 then bytes.tail else bytes
  if digits = [] then none else digits.foldlM pushDigit? 0

/-! ## Depths -/

/-- The depth that a literal denotes, found on its bytes; any other literal is rejected. -/
def MaxDepth.ofBytes (literal : Text) : Except Rejection MaxDepth :=
  if 3 < literal.bytes.length || !Numeral.isCanonicalInBytes literal then
    .error (.invalidDepth literal)
  else
    match (readOctet? literal.bytes).bind fun n => MaxDepth.ofNat? n.toNat with
    | some depth => .ok depth
    | none => .error (.invalidDepth literal)

end RegexUnroll
