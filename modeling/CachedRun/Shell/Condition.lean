import CachedRun.Shell.Tool
import CachedRun.Shell.Format

/-!
# Conditions

A part of the stand-in for the programs of a host (`CachedRun/Shell.lean`).

The conditions of `test` and `[`: about files, about texts, about numbers, and their combinations
with `!`, `-a`, `-o` and parentheses.

What a word means hangs on what follows it: an operator with one operand is a text if nothing
follows it or if an operator with two operands does. Three words of which the middle one is such an
operator are always a comparison. A condition that cannot be read is refused with what is wrong.
-/

set_option autoImplicit false

namespace CachedRun.Shell.Condition

def unaryOperators : List String :=
  ["-r", "-w", "-x", "-e", "-f", "-d", "-c", "-b", "-p", "-u", "-g", "-k", "-s", "-t", "-z", "-n",
    "-h", "-O", "-G", "-L", "-S"]

def binaryOperators : List String :=
  ["=", "!=", "<", ">", "-eq", "-ne", "-ge", "-gt", "-le", "-lt", "-nt", "-ot", "-ef"]

/-- What a word means at its place. -/
inductive Role where
  | nothing
  | operand
  | unary (operator : String)
  | binary
  | both
  | either
  | not
  | opening
  | closing
  deriving Repr, DecidableEq

def isBinary (w : Raw) : Bool := binaryOperators.contains (String.ofList w)

/-- Whether an operator with one operand is a text before these words. -/
def isAlone : List Raw → Bool
  | [] => true
  | [_] => false
  | w :: _ => isBinary w

/-- What the first of some words means. -/
def role : List Raw → Role
  | [] => .nothing
  | w :: rest =>
    let text := String.ofList w
    match text with
    | "-a" => .both
    | "-o" => .either
    | "!" => .not
    | "(" => if rest = [] then .operand else .opening
    | ")" => .closing
    | _ =>
      if isBinary w then .binary
      else if unaryOperators.contains text ∧ !isAlone rest then .unary text
      else .operand

/-- A condition about a file, or about a text. -/
def unary (t : FileTree) (directory : Path) (operator : String) (operand : Raw) : Bool :=
  let node := (look t directory operand).toOption.map Prod.snd
  match operator with
  | "-n" => operand ≠ []
  | "-z" => operand = []
  | "-e" | "-r" | "-w" | "-O" | "-G" => node.isSome
  | "-f" => node.any fun n => n ≠ .directory
  | "-d" | "-x" => node = some .directory
  | "-s" => node.any fun n => n ≠ .file []
  | _ => false

/-- The number that a text is, with blanks around it. -/
def number (s : Raw) : Except String Int :=
  let trimmed := Text.dropEndWhile isBlank (s.dropWhile isBlank)
  let (isNegative, digits) : Bool × Raw := match trimmed with
    | '-' :: digits => (true, digits)
    | '+' :: digits => (false, digits)
    | digits => (false, digits)
  let n := digitsValue 10 digits
  if digits = [] ∨ !digits.all Char.isDigit ∨ Nat.pow 2 63 ≤ n then
    .error s!"Illegal number: {s.toText}"
  else .ok (if isNegative then -(n : Int) else n)

/-- A comparison. -/
def binary (t : FileTree) (directory : Path) (a : Raw) (operator : String) (b : Raw) :
    Except String Bool := do
  let numbers (p : Int → Int → Bool) : Except String Bool := do
    return p (← number a) (← number b)
  match operator with
  | "=" => return a = b
  | "!=" => return a ≠ b
  | "<" => return a < b
  | ">" => return b < a
  | "-eq" => numbers fun m n => m = n
  | "-ne" => numbers fun m n => m ≠ n
  | "-lt" => numbers fun m n => m < n
  | "-le" => numbers fun m n => m ≤ n
  | "-gt" => numbers fun m n => n < m
  | "-ge" => numbers fun m n => n ≤ m
  | "-ef" =>
    match look t directory a, look t directory b with
    | .ok (a, _), .ok (b, _) => return a = b
    | _, _ => return false
  | _ => return false

mutual

/-- Conditions with `-o` between them. A reader gives the truth and the words from the last one on
that it has used; what its first word means is known. -/
def readAny (t : FileTree) (directory : Path) :
    Nat → Role → List Raw → Except String (Bool × List Raw)
  | 0, _, ws => .ok (false, ws)
  | fuel + 1, r, ws => do
    let (a, ws) ← readAll t directory fuel r ws
    if role (ws.drop 1) = .either then
      let ws := ws.drop 2
      let (b, ws) ← readAny t directory fuel (role ws) ws
      return (a || b, ws)
    return (a, ws)
termination_by structural fuel => fuel

/-- Conditions with `-a` between them. -/
def readAll (t : FileTree) (directory : Path) :
    Nat → Role → List Raw → Except String (Bool × List Raw)
  | 0, _, ws => .ok (false, ws)
  | fuel + 1, r, ws => do
    let (a, ws) ← readNegated t directory fuel r ws
    if role (ws.drop 1) = .both then
      let ws := ws.drop 2
      let (b, ws) ← readAll t directory fuel (role ws) ws
      return (a && b, ws)
    return (a, ws)
termination_by structural fuel => fuel

/-- A condition with signs of negation before it. -/
def readNegated (t : FileTree) (directory : Path) :
    Nat → Role → List Raw → Except String (Bool × List Raw)
  | 0, _, ws => .ok (false, ws)
  | fuel + 1, r, ws => do
    if r ≠ .not then readPrimary t directory fuel r ws
    else
      let r := role (ws.drop 1)
      let (a, ws) ← readNegated t directory fuel r (if r = .nothing then ws else ws.drop 1)
      return (!a, ws)
termination_by structural fuel => fuel

/-- A condition that is no combination, or one in parentheses. -/
def readPrimary (t : FileTree) (directory : Path) :
    Nat → Role → List Raw → Except String (Bool × List Raw)
  | 0, _, ws => .ok (false, ws)
  | fuel + 1, r, ws => do
    let operator := String.ofList ((ws.drop 1).head?.getD [])
    match r, ws with
    | .nothing, ws => return (false, ws)
    | .opening, ws =>
      let ws := ws.drop 1
      if role ws = .closing then return (false, ws)
      let (a, ws) ← readAny t directory fuel (role ws) ws
      if role (ws.drop 1) ≠ .closing then throw "closing paren expected"
      return (a, ws.drop 1)
    | .unary operator, _ :: operand :: rest =>
      return (unary t directory operator operand, operand :: rest)
    | .unary operator, _ => throw s!"{operator}: argument expected"
    | _, a :: o :: rest =>
      if role (o :: rest) ≠ .binary then return (a ≠ [], ws)
      match rest with
      | b :: more => return (← binary t directory a operator b, b :: more)
      | [] => throw s!"{operator}: argument expected"
    | _, ws => return (ws.head?.any (· ≠ []), ws)
termination_by structural fuel => fuel

end

/-- Whether the condition of some words holds; all of them must belong to it. -/
def holdsWithin (t : FileTree) (directory : Path) : Nat → List Raw → Except String Bool
  | 0, _ => .ok false
  | _, [] => .ok false
  | fuel + 1, ws => do
    let whole (r : Role) (ws : List Raw) : Except String Bool := do
      let (a, left) ← readAny t directory (4 * ws.length + 4) r ws
      match left with
      | w :: _ :: _ => throw s!"{w.toText}: unexpected operator"
      | _ => return a
    let isShort := ws.length = 3 ∨ ws.length = 4
    if ws.length = 3 ∧ isBinary ((ws.drop 1).head?.getD []) then whole .operand ws
    else if isShort ∧ ws.head? = some ['('] ∧ ws.getLast? = some [')'] then
      let ws := (ws.drop 1).dropLast
      whole (role ws) ws
    else if isShort ∧ ws.head? = some ['!'] then
      return !(← holdsWithin t directory fuel (ws.drop 1))
    else whole (role ws) ws

/-- Whether a condition holds. -/
def holds (t : FileTree) (directory : Path) (ws : List Raw) : Except String Bool :=
  holdsWithin t directory (ws.length + 1) ws

end CachedRun.Shell.Condition
