import Mathlib.Data.List.Basic

/-!
# `vdscanf`

A format is the list of its bytes before the terminator. The bytes that `read` will still return are a
list too; at its end `read` returns nothing, which is `EOF`, here `none`. Through a null pointer no value
is stored.
-/

namespace Kerosene.Libc

def isSpace (c : UInt8) : Bool :=
  c = ' '.toUInt8 || c = '\n'.toUInt8 || c = '\r'.toUInt8 || c = '\t'.toUInt8 || c = 11 || c = 12

def isDigit (c : UInt8) : Bool := '0'.toUInt8 ≤ c && c ≤ '9'.toUInt8

-- `*format` as an `int`: `char` is signed
def charValue (f : UInt8) : Int := f.toInt8.toInt

/-! ## The stream -/

structure ScanStream where
  ungotChar : Option UInt8
  input : List UInt8
  deriving DecidableEq

namespace ScanStream

def getc (s : ScanStream) : Option UInt8 × ScanStream :=
  match s.ungotChar with
  | some c => (some c, ⟨none, s.input⟩)
  | none =>
      match s.input with
      | [] => (none, s)
      | c :: input => (some c, ⟨none, input⟩)

-- `if(c != EOF) stream_ungetc(&stream, c)`, where no character is put back yet
def ungetc (s : ScanStream) (c : Option UInt8) : ScanStream := ⟨c, s.input⟩

-- the bytes that meet `p`, the first that does not, and the rest
def readInput (p : UInt8 → Bool) : List UInt8 → List UInt8 × Option UInt8 × List UInt8
  | [] => ([], none, [])
  | c :: input =>
      if p c then
        let (read, stop, rest) := readInput p input
        (c :: read, stop, rest)
      else ([], some c, input)

/-- `while(p(c = stream_getc(&stream)))`: what was read, the last `c`, and the stream. -/
def readWhile (p : UInt8 → Bool) (s : ScanStream) : List UInt8 × Option UInt8 × ScanStream :=
  match s.getc with
  | (none, s) => ([], none, s)
  | (some c, s) =>
      if p c then
        let (read, stop, rest) := readInput p s.input
        (c :: read, stop, ⟨none, rest⟩)
      else ([], some c, s)

def skipSpace (s : ScanStream) : ScanStream :=
  let (_, c, s) := s.readWhile isSpace
  s.ungetc c

-- all that is not read yet
def chars (s : ScanStream) : List UInt8 := s.ungotChar.toList ++ s.input

end ScanStream

/-! ## Directives -/

/-- What is stored through a parameter. -/
inductive Value
  | char (c : UInt8)
  | str (bytes : List UInt8)
  | int (n : BitVec 32)
  | unsigned (n : BitVec 32)
  deriving DecidableEq

/-- What a part of the format leaves; the loop breaks where it is not `matched`. -/
structure Outcome where
  stream : ScanStream
  values : List Value
  assigned : Nat
  matched : Bool
  deriving DecidableEq

namespace Outcome

def breaks (s : ScanStream) : Outcome := ⟨s, [], 0, false⟩

def assigns (s : ScanStream) (v : Value) : Outcome := ⟨s, [v], 1, true⟩

def andThen (r : Outcome) (next : ScanStream → Outcome) : Outcome :=
  if r.matched then
    let r' := next r.stream
    ⟨r'.stream, r.values ++ r'.values, r.assigned + r'.assigned, r'.matched⟩
  else r

end Outcome

open Outcome

-- `EOF` is -1, which a signed `char` can be
def expect (f : UInt8) (s : ScanStream) : Outcome :=
  match s.getc with
  | (none, s) => if charValue f = -1 then ⟨s, [], 0, true⟩ else breaks s
  | (some c, s) => if (c.toNat : Int) = charValue f then ⟨s, [], 0, true⟩ else breaks (s.ungetc (some c))

def scanChar (s : ScanStream) : Outcome :=
  match s.getc with
  | (none, s) => breaks s
  | (some c, s) => assigns s (.char c)

def scanString (s : ScanStream) : Outcome :=
  let (bytes, c, s) := s.readWhile fun c => !isSpace c
  let s := s.ungetc c
  -- the terminator is stored before the test
  if bytes.length = 0 ∧ c = none then ⟨s, [.str []], 0, false⟩ else assigns s (.str bytes)

def decimal (digits : List UInt8) : BitVec 32 :=
  digits.foldl (fun num c => num * 10#32 + BitVec.ofNat 32 (c.toNat - '0'.toNat)) 0#32

-- from the first character behind the sign
def scanDigits (c : Option UInt8) (neg : Bool) (s : ScanStream) : Outcome :=
  match c with
  | none => breaks s
  | some c =>
      if isDigit c then
        let (digits, stop, s) := s.readWhile isDigit
        let num := decimal (c :: digits)
        assigns (s.ungetc stop) (.int (if neg then -num else num))
      else breaks (s.ungetc (some c))

def scanInt (s : ScanStream) : Outcome :=
  match s.getc with
  | (none, s) => breaks s
  | (some c, s) =>
      if c = '-'.toUInt8 then
        let (c, s) := s.getc
        scanDigits c true s
      else if c = '+'.toUInt8 then
        let (c, s) := s.getc
        scanDigits c false s
      else scanDigits (some c) false s

def hexDigit (c : UInt8) : Option Nat :=
  if isDigit c then some (c.toNat - '0'.toNat)
  else if 'a'.toUInt8 ≤ c ∧ c ≤ 'f'.toUInt8 then some (c.toNat - 'a'.toNat + 10)
  else if 'A'.toUInt8 ≤ c ∧ c ≤ 'F'.toUInt8 then some (c.toNat - 'A'.toNat + 10)
  else none

def hexadecimal (digits : List UInt8) : BitVec 32 :=
  digits.foldl (fun num c => num * 16#32 + BitVec.ofNat 32 ((hexDigit c).getD 0)) 0#32

def scanHexDigits (c : Option UInt8) (s : ScanStream) : Outcome :=
  match c with
  | none => breaks s
  | some c =>
      if (hexDigit c).isSome then
        let (digits, stop, s) := s.readWhile fun c => (hexDigit c).isSome
        assigns (s.ungetc stop) (.unsigned (hexadecimal (c :: digits)))
      else breaks (s.ungetc (some c))

def scanHex (s : ScanStream) : Outcome :=
  match s.getc with
  | (none, s) => breaks s
  | (some c, s) =>
      if c = '0'.toUInt8 then
        let (next, s) := s.getc
        if next = some 'x'.toUInt8 ∨ next = some 'X'.toUInt8 then
          let (c, s) := s.getc
          scanHexDigits c s
        else scanHexDigits (some c) (s.ungetc next)
      else scanHexDigits (some c) s

-- `d` is what follows the `%`
def directive (d : UInt8) (s : ScanStream) : Outcome :=
  if d = '%'.toUInt8 then expect d s
  else if d = 'c'.toUInt8 then scanChar s
  else if d = 's'.toUInt8 then scanString s.skipSpace
  else if d = 'd'.toUInt8 then scanInt s.skipSpace
  else if d = 'x'.toUInt8 then scanHex s.skipSpace
  else breaks s

def scan : (format : List UInt8) → ScanStream → Outcome
  | [], s => ⟨s, [], 0, true⟩
  | f :: format, s =>
      if isSpace f then scan format s.skipSpace
      else if f ≠ '%'.toUInt8 then (expect f s).andThen (scan format)
      else
        match format with
        | [] => breaks s
        | d :: format => (directive d s).andThen (scan format)

structure ScanResult where
  assigned : Nat
  values : List Value
  input : List UInt8
  deriving DecidableEq

/-- The stream is local to the call: a character put back is lost at its end. -/
def vdscanf (input format : List UInt8) : ScanResult :=
  let r := scan format ⟨none, input⟩
  ⟨r.assigned, r.values, r.stream.input⟩

end Kerosene.Libc
