/-!
# Numbers of captures

Captures are known by number, and a number is kept in a word of 64 bits. The hidden captures and the
transfers that are known beforehand may name any number that a word holds, whether or not the
pattern has such a capture. Where such a number moves up, the sum is kept in a word too, and what
exceeds the word is dropped (`addw`).

The captures that a text opens are counted exactly. They are at most as many as the text has bytes
(`countCaptures_le_utf8Length`), and the numbers of new captures do not exceed the bytes of the
unrolled pattern either (`Unrolls.capturesBefore_add_newCaptures_le`). A text that a memory holds
has fewer than `UInt64.size` bytes, so a word keeps these numbers.
-/

namespace RegexUnroll

/-- The sum of two numbers as a word keeps it. -/
def addw (m n : Nat) : Nat := (m + n) % UInt64.size

/-- A sum that fits into a word is kept as it is. -/
theorem addw_of_lt {m n : Nat} (h : m + n < UInt64.size) : addw m n = m + n := Nat.mod_eq_of_lt h

end RegexUnroll
