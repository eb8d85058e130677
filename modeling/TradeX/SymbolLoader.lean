import Mathlib.Algebra.Ring.Nat

/-!
# Loading the symbols

`loadSymbolCSV` of `symbol_loader.cpp`, on the bytes of the file. `std::getline` leaves its
string alone when the stream has come to its end before, so a line with too few fields is read
with its last number again; `std::stoul` and `std::stoull` skip white space, take a sign, read
digits and ignore what follows, and throw if there are none or the number is too large.
-/

namespace TradeX

/-- A `SymbolInfo` with the bytes of its symbol. -/
structure SymbolRecord where
  symbol : List UInt8
  symbolId : UInt32
  ltp : UInt64
  lowerLimit : UInt64
  upperLimit : UInt64
  deriving DecidableEq

/-- What `std::stoul` and `std::stoull` throw. -/
inductive NumberError
  | invalidArgument
  | outOfRange
  deriving DecidableEq

namespace SymbolLoader

/-- The lines `std::getline` reads from a file : an end of line at the end of the file begins no
other line. -/
def linesOf (file : List UInt8) : List (List UInt8) :=
  let pieces := file.splitOn 10
  if pieces.getLast? = some [] then pieces.dropLast else pieces

/-- A stream of the characters of a line that are left, or one that has come to its end. -/
abbrev LineStream := Option (List UInt8)

/-- `std::getline(ss, token, ',')`. -/
def getField (ss : LineStream) (token : List UInt8) : List UInt8 × LineStream :=
  match ss with
  | none => (token, none)
  | some rest =>
    match rest.dropWhile (· ≠ 44) with
    | [] => (rest, none)
    | _ :: after => (rest.takeWhile (· ≠ 44), some after)

/-- `isspace` in the C locale. -/
def isSpace (c : UInt8) : Bool :=
  c = 32 ∨ 9 ≤ c ∧ c ≤ 13

/-- A decimal digit. -/
def isDigit (c : UInt8) : Bool :=
  48 ≤ c ∧ c ≤ 57

/-- The sign of a number, and what follows it. -/
def sign : List UInt8 → Bool × List UInt8
  | 43 :: rest => (false, rest)
  | 45 :: rest => (true, rest)
  | rest => (false, rest)

/-- The number the digits make in base ten. -/
def digitsValue (digits : List UInt8) : ℕ :=
  digits.foldl (fun value c => 10 * value + (c.toNat - 48)) 0

/-- `std::stoul` and `std::stoull`, both of 64 bits. A number with a minus is negated. -/
def stoull (token : List UInt8) : Except NumberError ℕ :=
  let (negative, rest) := sign (token.dropWhile isSpace)
  let digits := rest.takeWhile isDigit
  if digits = [] then .error .invalidArgument
  else if 2 ^ 64 ≤ digitsValue digits then .error .outOfRange
  else .ok (if negative then (2 ^ 64 - digitsValue digits) % 2 ^ 64 else digitsValue digits)

/-- A pass of the loop over the lines. -/
def parseLine (line : List UInt8) : Except NumberError SymbolRecord := do
  let (symbol, ss) := getField (some line) []
  let (token, ss) := getField ss []
  let symbolId ← stoull token
  let (token, ss) := getField ss token
  let ltp ← stoull token
  let (token, ss) := getField ss token
  let lowerLimit ← stoull token
  let (token, _) := getField ss token
  let upperLimit ← stoull token
  .ok ⟨symbol, .ofNat symbolId, .ofNat ltp, .ofNat lowerLimit, .ofNat upperLimit⟩

/-- The first line is skipped. -/
def loadSymbolCSV (file : List UInt8) : Except NumberError (List SymbolRecord) :=
  (linesOf file).tail.mapM parseLine

end SymbolLoader

end TradeX
