/-
AgentBlock/Lib/Numeral.lean

The numbers `tonumber` reads: a text is a numeral, decimal or hexadecimal, an
integer where it has neither a fraction nor an exponent and fits.

A float is kept exact here: it is not rounded to one of 64 bits.
-/
import AgentBlock.Lib.Lua
import Mathlib.Algebra.Group.Int.Defs

namespace Numeral

/-- White space of the C locale. -/
def isSpace (c : Char) : Bool := c = ' ' ∨ (9 ≤ c.toNat ∧ c.toNat ≤ 13)

/-- The value of a digit, in a base up to 16. -/
def digit? (base : Nat) (c : Char) : Option Nat :=
  let value :=
    if c.isDigit then some (c.toNat - '0'.toNat)
    else if 'a' ≤ c ∧ c ≤ 'f' then some (c.toNat - 'a'.toNat + 10)
    else if 'A' ≤ c ∧ c ≤ 'F' then some (c.toNat - 'A'.toNat + 10)
    else none
  value.filter (· < base)

/-- The digits a text starts with, and the rest of it. -/
def digits (base : Nat) : List Char → List Nat × List Char
  | [] => ([], [])
  | c :: rest =>
      match digit? base c with
      | some d => let (ds, rest) := digits base rest; (d :: ds, rest)
      | none => ([], c :: rest)

def value (base : Nat) (ds : List Nat) : Nat := ds.foldl (fun n d => n * base + d) 0

/-- A sign, if there is one. -/
def sign : List Char → Bool × List Char
  | '-' :: rest => (true, rest)
  | '+' :: rest => (false, rest)
  | cs => (false, cs)

/-- An exponent after its letter, when it is all there is. -/
def exponent (cs : List Char) : Option Int :=
  let (negative, cs) := sign cs
  match digits 10 cs with
  | ([], _) => none
  | (ds, []) => some (if negative then -(value 10 ds : Int) else value 10 ds)
  | _ => none

/-- A number of 64 bits. -/
def wrap (n : Int) : Int := (n + 2 ^ 63) % 2 ^ 64 - 2 ^ 63

/-- The number with these digits and no fraction or exponent: a hexadecimal one
wraps, a decimal one that does not fit is a float. -/
def integer (base : Nat) (negative : Bool) (ds : List Nat) : LuaNumber :=
  let n : Int := if negative then -(value base ds : Int) else value base ds
  if base = 16 then .int (wrap n)
  else if wrap n = n then .int n
  else .float n

/-- A numeral in a base, without its sign; an exponent has `letter` before it
and is one of `radix`. -/
def unsigned (base radix : Nat) (letter : Char) (negative : Bool) (cs : List Char) :
    Option LuaNumber :=
  let (whole, rest) := digits base cs
  if rest = [] ∧ whole ≠ [] then some (integer base negative whole)
  else
    let (fraction, rest) := match rest with
      | '.' :: rest => digits base rest
      | rest => ([], rest)
    let exponent := match rest with
      | [] => some 0
      | c :: rest => if c.toLower = letter then exponent rest else none
    if whole = [] ∧ fraction = [] then none
    else exponent.map fun e =>
      let mantissa : Rat := value base (whole ++ fraction) / base ^ fraction.length
      if negative ∧ mantissa = 0 then .negZero
      else .float ((if negative then -mantissa else mantissa) * (radix : Rat) ^ e)

/-- The number a text is. -/
def parse (cs : List Char) : Option LuaNumber :=
  let cs := (cs.dropWhile isSpace).reverse.dropWhile isSpace |>.reverse
  let (negative, cs) := sign cs
  match cs with
  | '0' :: x :: rest =>
      if x = 'x' ∨ x = 'X' then unsigned 16 2 'p' negative rest
      else unsigned 10 10 'e' negative cs
  | cs => unsigned 10 10 'e' negative cs

end Numeral

/-- `tonumber(v)`. -/
def Lua.tonumber : Lua → Option LuaNumber
  | num n => some n
  | str s => Numeral.parse s.toList
  | _ => none
