/-!
Exact integers: how literals are read, the width of an integer, and the bitwise operations and shifts
that constant folding performs on two's complement forms, at widths that lose nothing.
-/

namespace Choreography.Integer

/-- The value of a digit in any radix up to thirty-six; letters count in either case. -/
def digitValue (c : Char) : Nat :=
  if '0' ≤ c && c ≤ '9' then c.toNat - '0'.toNat
  else if 'a' ≤ c && c ≤ 'z' then c.toNat - 'a'.toNat + 10
  else if 'A' ≤ c && c ≤ 'Z' then c.toNat - 'A'.toNat + 10
  else 0

/-- The number that a list of digits spells, most significant first. -/
def ofDigits (radix : Nat) (digits : List Char) : Nat :=
  digits.foldl (fun n c => n * radix + digitValue c) 0

/-- The letter that marks a radix after a leading zero, in either case. -/
def marks (radix : Nat) (c : Char) : Bool :=
  match radix with
  | 16 => c == 'x' || c == 'X'
  | 8 => c == 'o' || c == 'O'
  | 2 => c == 'b' || c == 'B'
  | _ => false

/-- Drops the mark of the radix, and then for octal one further zero that does not stand alone. -/
def stripMark (radix : Nat) (text : List Char) : List Char :=
  let text := match text with
    | '0' :: c :: rest => if marks radix c then rest else text
    | _ => text
  match radix, text with
  | 8, '0' :: c :: rest => c :: rest
  | _, _ => text

/-- Digits after an optional sign. -/
def ofSigned (radix : Nat) : List Char → Int
  | '-' :: digits => -(ofDigits radix digits : Int)
  | '+' :: digits => ofDigits radix digits
  | digits => ofDigits radix digits

/-- The value of a literal as written, with or without the mark of its radix. -/
def ofLiteral (text : String) (radix : Nat) : Int :=
  ofSigned radix (stripMark radix text.toList)

/-- Decimal text, with a minus sign for negative numbers. -/
def decimal : Int → String
  | .ofNat n => toString n
  | .negSucc n => "-" ++ toString (n + 1)

/-- The least width, in bits and at least one, at which the number has a two's complement form. -/
def width : Int → Nat
  | .ofNat n => bits n + 1
  | .negSucc n => bits n + 1
where
  /-- How many binary digits a natural number has. -/
  bits (n : Nat) : Nat := if n = 0 then 0 else n.log2 + 1

/-- The number itself when it fits in a signed word of sixty-four bits. -/
def word? (n : Int) : Option Int :=
  if -Int.pow 2 63 ≤ n ∧ n < Int.pow 2 63 then some n else none

/-- The number as a count: a natural number below the largest signed word. -/
def count? (n : Int) : Option Nat :=
  match word? n with
  | some (.ofNat m) => some m
  | _ => none

/-- The two's complement form at the given width: that of least width, its sign repeated in front. -/
def widen (a : Int) (bits : Nat) : BitVec bits :=
  (BitVec.ofInt (width a) a).signExtend bits

/-- Combines the forms of two numbers at a width that holds both, with a bit to spare. -/
def combine (op : (bits : Nat) → BitVec bits → BitVec bits → BitVec bits) (a b : Int) : Int :=
  let bits := max (width a) (width b) + 1
  (op bits (widen a bits) (widen b bits)).toInt

def land : Int → Int → Int := combine fun _ x y => x &&& y

def lor : Int → Int → Int := combine fun _ x y => x ||| y

def lxor : Int → Int → Int := combine fun _ x y => x ^^^ y

/-- The largest amount by which constant folding shifts, in either direction. -/
def maxShift : Nat := 65536

/-- Whether constant folding shifts by the amount, which has to be a word and not too large. -/
def folds (amount : Int) : Bool := (word? amount).any fun n => n.natAbs ≤ maxShift

-- Each shift hands a negative amount to the other, which then has an amount that is not negative.
mutual

/-- Shifts to the left, at a width that holds the result; a negative amount shifts to the right. -/
def shiftLeft (a amount : Int) : Option Int :=
  if folds amount then
    match amount with
    | .ofNat n => some (widen a (width a + n + 1) <<< n).toInt
    | .negSucc n => shiftRight a (n + 1)
  else none
termination_by (-amount).toNat

/-- Shifts to the right, rounding towards minus infinity; past the width only the sign is left. A
negative amount shifts to the left. -/
def shiftRight (a amount : Int) : Option Int :=
  if folds amount then
    match amount with
    | .ofNat n =>
      if width a + 1 ≤ n then some (if a < 0 then -1 else 0)
      else some ((widen a (width a + 1)).sshiftRight n).toInt
    | .negSucc n => shiftLeft a (n + 1)
  else none
termination_by (-amount).toNat

end

end Choreography.Integer
