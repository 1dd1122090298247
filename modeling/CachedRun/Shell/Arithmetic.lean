import CachedRun.Shell.Format

/-!
# Arithmetic

A part of the stand-in for the programs of a host (`CachedRun/Shell.lean`).

The value of an arithmetic expansion: integers of 64 bits, variables, the operators of the shell, a
choice with `?` and `:`, and assignments, which give variables new values. What is not chosen by a
choice or by `&&` and `||` is read and not computed.
-/

set_option autoImplicit false

namespace CachedRun.Shell.Arithmetic

/-- The binary operators with how tightly they bind, the longer ones first. -/
def operators : List (String × Nat) :=
  [("||", 1), ("&&", 2), ("==", 6), ("!=", 6), ("<<", 8), (">>", 8), ("<=", 7), (">=", 7), ("<", 7),
    (">", 7), ("|", 3), ("^", 4), ("&", 5), ("+", 9), ("-", 9), ("*", 10), ("/", 10), ("%", 10)]

/-- The operators whose result can be assigned by an equals sign behind them. -/
def assigning : List String := ["<<", ">>", "+", "-", "*", "/", "%", "&", "^", "|"]

/-- An integer in the range of 64 bits. -/
def wrapped (i : Int) : Int := Int.bmod i (Nat.pow 2 64)

def truth (b : Bool) : Int := if b then 1 else 0

/-- The value of an operation on the 64 bits of two numbers. -/
def onBits (f : Nat → Nat → Nat) (a b : Int) : Int :=
  let bits (i : Int) : Nat := (i % (Nat.pow 2 64 : Nat)).toNat
  wrapped (f (bits a) (bits b))

/-- The value of an operation. -/
def apply (operator : String) (a b : Int) : Except String Int :=
  match operator with
  | "||" => .ok (truth (a ≠ 0 || b ≠ 0))
  | "&&" => .ok (truth (a ≠ 0 && b ≠ 0))
  | "==" => .ok (truth (a = b))
  | "!=" => .ok (truth (a ≠ b))
  | "<=" => .ok (truth (a ≤ b))
  | ">=" => .ok (truth (b ≤ a))
  | "<" => .ok (truth (a < b))
  | ">" => .ok (truth (b < a))
  | "|" => .ok (onBits Nat.lor a b)
  | "^" => .ok (onBits Nat.xor a b)
  | "&" => .ok (onBits Nat.land a b)
  | "<<" => .ok (wrapped (a * Nat.pow 2 (b % 64).toNat))
  | ">>" => .ok (a.fdiv (Nat.pow 2 (b % 64).toNat))
  | "+" => .ok (wrapped (a + b))
  | "-" => .ok (wrapped (a - b))
  | "*" => .ok (wrapped (a * b))
  | "/" => if b = 0 then .error "division by zero" else .ok (wrapped (a.tdiv b))
  | _ => if b = 0 then .error "division by zero" else .ok (a.tmod b)

def skipBlanks (s : Raw) : Raw := s.dropWhile fun c => isBlank c || c = '\n'

/-- The operator at the beginning of a text. -/
def operator? (s : Raw) : Option (String × Nat × Raw) :=
  operators.findSome? fun (text, level) =>
    if text.toList.isPrefixOf s then some (text, level, s.drop text.length) else none

/-- The assignment at the beginning of a text, with the operator whose result is assigned. -/
def assignment? (s : Raw) : Option (Option String × Raw) :=
  match s with
  | '=' :: '=' :: _ => none
  | '=' :: rest => some (none, rest)
  | s => assigning.findSome? fun text =>
    if (text.toList ++ ['=']).isPrefixOf s then some (some text, s.drop (text.length + 1)) else none

/-- The number at the beginning of a text: hexadecimal after `0x`, octal after `0`. -/
def readNumber (s : Raw) : Int × Raw :=
  let digits (base : Nat) (isDigit : Char → Bool) (s : Raw) : Int × Raw :=
    let digits := s.takeWhile isDigit
    (wrapped (digitsValue base digits), s.drop digits.length)
  match s with
  | '0' :: x :: d :: rest =>
    if (x = 'x' ∨ x = 'X') ∧ isHex d then digits 16 isHex (d :: rest)
    else digits 8 isOctal s
  | '0' :: _ => digits 8 isOctal s
  | s => digits 10 Char.isDigit s

/-- The variables with their values. -/
abbrev Variables := Raw → Raw

def Variables.set (vs : Variables) (name value : Raw) : Variables :=
  fun n => if n = name then value else vs n

/-- How far a computation has come: the variables, those that were assigned (last first), and the
rest of the expression. -/
structure Progress where
  values : Variables
  assigned : List (Raw × Raw)
  rest : Raw

def Progress.assign (p : Progress) (name : Raw) (n : Int) : Progress :=
  let value := Decimal.intText n
  { p with values := p.values.set name value, assigned := (name, value) :: p.assigned }

/-- The value of a variable; nothing counts as zero. -/
def variableValue (value : Raw) : Except String Int :=
  let trimmed := Text.dropEndWhile isBlank (value.dropWhile isBlank)
  let (sign, digits) : Int × Raw := match trimmed with
    | '-' :: digits => (-1, digits)
    | '+' :: digits => (1, digits)
    | digits => (1, digits)
  if trimmed = [] then .ok 0
  else
    let (n, rest) := readNumber digits
    if !digits.head?.any Char.isDigit ∨ rest ≠ [] then
      .error s!"Illegal number: {value.toText}"
    else .ok (sign * n)

/-- Why an expression has no value. -/
inductive Flaw where
  /-- Something is wrong with the expression. -/
  | expression (text : String)
  /-- Something is wrong with the value of a variable. -/
  | value (text : String)

mutual

/-- A number, a variable, or an expression in parentheses, with the signs before it. The flag says
whether the value is needed. -/
def readOperand : Nat → Bool → Progress → Except Flaw (Int × Progress)
  | 0, _, _ => .error (.expression "expecting primary")
  | fuel + 1, isNeeded, p => do
    let after (f : Int → Int) (rest : Raw) : Except Flaw (Int × Progress) := do
      let (n, p) ← readOperand fuel isNeeded { p with rest }
      return (f n, p)
    match skipBlanks p.rest with
    | '(' :: rest =>
      let (n, p) ← readAssignment fuel isNeeded { p with rest }
      match skipBlanks p.rest with
      | ')' :: rest => return (n, { p with rest })
      | _ => throw (.expression "expecting ')'")
    | '-' :: rest => after (fun n => wrapped (-n)) rest
    | '+' :: rest => after id rest
    | '!' :: rest => after (fun n => truth (n = 0)) rest
    | '~' :: rest => after (fun n => -n - 1) rest
    | c :: rest =>
      let s := c :: rest
      if c.isDigit then
        let (n, rest) := readNumber s
        return (n, { p with rest })
      else if isNameStart c then
        let name := s.takeWhile isNameChar
        let n ← if isNeeded then (variableValue (p.values name)).mapError .value else .ok 0
        return (n, { p with rest := s.drop name.length })
      else throw (.expression "expecting primary")
    | [] => throw (.expression "expecting primary")
termination_by structural fuel => fuel

/-- An expression of operators that bind at least as tightly as a level. -/
def readFrom : Nat → Bool → Nat → Progress → Except Flaw (Int × Progress)
  | 0, _, _, _ => .error (.expression "expecting primary")
  | fuel + 1, isNeeded, level, p => do
    let (a, p) ← readOperand fuel isNeeded p
    readMore fuel isNeeded level a p
termination_by structural fuel => fuel

/-- What follows the first operand of an expression. -/
def readMore : Nat → Bool → Nat → Int → Progress → Except Flaw (Int × Progress)
  | 0, _, _, _, _ => .error (.expression "expecting primary")
  | fuel + 1, isNeeded, level, a, p => do
    let s := skipBlanks p.rest
    match operator? s with
    | some (operator, own, rest) =>
      if own < level ∨ (assignment? s).isSome then return (a, p)
      else
        let isDecided : Bool := (operator = "&&" && a = 0) || (operator = "||" && a ≠ 0)
        let isNeeded' := isNeeded && !isDecided
        let (b, p) ← readFrom fuel isNeeded' (own + 1) { p with rest }
        let n ← if isNeeded' then (apply operator a b).mapError .expression
          else .ok (truth (operator = "||"))
        readMore fuel isNeeded level n p
    | none => return (a, p)
termination_by structural fuel => fuel

/-- An expression with a choice after it. -/
def readChoice : Nat → Bool → Progress → Except Flaw (Int × Progress)
  | 0, _, _ => .error (.expression "expecting primary")
  | fuel + 1, isNeeded, p => do
    let (a, p) ← readFrom fuel isNeeded 1 p
    match skipBlanks p.rest with
    | '?' :: rest =>
      let (b, p) ← readAssignment fuel (isNeeded && a ≠ 0) { p with rest }
      match skipBlanks p.rest with
      | ':' :: rest =>
        let (c, p) ← readChoice fuel (isNeeded && a = 0) { p with rest }
        return (if a ≠ 0 then b else c, p)
      | _ => throw (.expression "expecting ':'")
    | _ => return (a, p)
termination_by structural fuel => fuel

/-- An assignment, or an expression that is none. -/
def readAssignment : Nat → Bool → Progress → Except Flaw (Int × Progress)
  | 0, _, _ => .error (.expression "expecting primary")
  | fuel + 1, isNeeded, p => do
    let s := skipBlanks p.rest
    let name := if s.head?.any isNameStart then s.takeWhile isNameChar else []
    match if name = [] then none else assignment? (skipBlanks (s.drop name.length)) with
    | some (operator?, rest) =>
      let (b, p) ← readAssignment fuel isNeeded { p with rest }
      if !isNeeded then return (0, p)
      let n ← match operator? with
        | some operator => do
          let a ← (variableValue (p.values name)).mapError .value
          (apply operator a b).mapError .expression
        | none => .ok b
      return (n, p.assign name n)
    | none => readChoice fuel isNeeded p
termination_by structural fuel => fuel

end

/-- The value of an expression and the assignments in it, in their order. A refusal of the
expression shows it. -/
def compute (values : Variables) (s : Raw) : Except String (Int × List (Raw × Raw)) :=
  let read : Except Flaw (Int × List (Raw × Raw)) := do
    let (n, p) ← readAssignment (6 * s.length + 8) true ⟨values, [], s⟩
    if skipBlanks p.rest ≠ [] then throw (.expression "expecting EOF")
    return (n, p.assigned.reverse)
  read.mapError fun
    | .expression text => s!"arithmetic expression: {text}: " ++ "\"" ++ s.toText ++ "\""
    | .value text => text

end CachedRun.Shell.Arithmetic
