import MobileTestkit.Core.PyStr

/-!
# WHERE clauses to JSON

Model of `get_operand`, `get_prefix_list` and `prefix_evaluation`
(testsuites/CBLTester/rqg_parser.py): the words of a WHERE clause are put into
prefix order by a shunting-yard loop over the reversed words, and the prefix
list is evaluated on a second stack.

`Value` is what the lists of the program hold: operands, operator names and the
nested lists built from them. A stack has its top in front. `isdigit`, `isalpha`
and `int` are Python's on ASCII, so a word outside quotes is to be read as one of
ASCII; in a literal any character may stand.
-/
namespace MobileTestkit.L3.RqgParser

open MobileTestkit.Core

inductive Exn where
  | keyError
  | valueError
  | indexError
  | attributeError
  deriving DecidableEq, Repr

inductive Value where
  | str (s : String)
  | int (n : Nat)
  | list (vs : List Value)

/-! ## The tables -/

/-- mirrors testsuites/CBLTester/rqg_parser.py:18-47 -/
def prec : List (String × Nat) := [
  ("+", 0), ("-", 0), ("*", 0), ("/", 0), ("%", 0), ("<", 0), ("<=", 0), ("=", 0), (">", 0),
  (">=", 0), ("!=", 0), ("BETWEEN", 1), ("AND", 2), ("OR", 2), ("NOT", 1), ("IN", 1), ("IS", 1),
  ("IS-NOT", 1), ("IS-NULL", 1), ("EXIST", 1), ("LIKE", 1), ("IS-MISSING", 1),
  ("IS-NOT-MISSING", 1), ("IS-NOT-NULL", 1), ("ANY-AND-EVERY", 1), ("NOT-IN", 1), ("(", 3), (")", 3)]

def arithmeticOperator : List String := ["+", "-", "*", "/", "%", "<", "<=", "=", ">", ">=", "!="]

def logicalOperator : List String := [
  "BETWEEN", "AND", "OR", "NOT", "IN", "IS", "IS-NOT", "IS-NULL", "EXIST", "LIKE", "IS-NOT",
  "IS-MISSING", "IS-NOT-MISSING", "IS-NOT-NULL", "IS-NULL", "ANY-AND-EVERY", "NOT-IN"]

def operators : List String := logicalOperator ++ arithmeticOperator ++ ["(", ")"]

/-- How many operands an operator takes.
mirrors testsuites/CBLTester/rqg_parser.py:91-130 -/
def operations : List (String × String) := [
  ("+", "2+"), ("-", "1-2"), ("*", "2+"), ("/", "2"), ("%", "2"), ("\x60", "1"), ("=", "2"),
  ("!=", "2"), ("<", "2"), ("<=", "2"), (">", "2"), (">=", "2"), ("BETWEEN", "3"), ("IS", "2"),
  ("IS-NOT", "2"), ("LIKE", "2"), ("NOT-LIKE", "2"), ("MATCH", "2"), ("IN", "2"), ("NOT-IN", "2"),
  ("EXISTS", "1"), ("IS-MISSING", "1"), ("IS-NOT-MISSING", "1"), ("IS-NULL", "1"),
  ("IS-NOT-NULL", "1"), ("COLLATE", "2"), ("NOT", "1"), ("AND", "2"), ("OR", "2"), ("CASE", "2+"),
  ("WHEN", "2"), ("ELSE", "1"), ("ANY", "3"), ("EVERY", "3"), ("ANY-AND-EVERY", "3"), (".", "0+"),
  ("$", "1"), ("?", "1+")]

/-- `table[key]`. -/
def get {α : Type} (table : List (String × α)) (key : String) : Except Exn α :=
  match table.lookup key with
  | some v => .ok v
  | none => .error .keyError

/-! ## Operands -/

/-- mirrors testsuites/CBLTester/rqg_parser.py:133-152 -/
def getOperand (token : String) : Value :=
  if PyStr.startswith token "$" then
    .list [.str (".\"$\"" ++ String.ofList (token.toList.drop 1))]
  else if PyStr.isdigit token then .int (Nat.ofDigitChars 10 token.toList 0)
  else if token = "meta().id" then .list [.str "._id"]
  else if PyStr.startswith token "\"" then
    if token = "\"True\"" ∨ token = "\"true\"" then .str "true"
    else if token = "\"False\"" ∨ token = "\"false\"" then .str "false"
    else .str (String.ofList (PyStr.stripChar '"' token.toList))
  else if token = "null" then .str "null"
  else if PyStr.isalpha token then .list [.str ("." ++ token)]
  else .str token

/-! ## get_prefix_list -/

/-- `BETWEEN ([0-9]+) and ([0-9]+)` at the front of a text, with its groups. -/
def betweenAt (cs : List Char) : Option (List Char × List Char) :=
  if "BETWEEN ".toList.isPrefixOf cs then
    let cs := cs.drop "BETWEEN ".toList.length
    let num1 := cs.takeWhile Char.isDigit
    let cs := cs.drop num1.length
    if !num1.isEmpty && " and ".toList.isPrefixOf cs then
      let num2 := (cs.drop " and ".toList.length).takeWhile Char.isDigit
      if num2.isEmpty then none else some (num1, num2)
    else none
  else none

/-- `re.search`. -/
def betweenMatch : List Char → Option (List Char × List Char)
  | [] => none
  | c :: cs => (betweenAt (c :: cs)).or (betweenMatch cs)

/-- mirrors testsuites/CBLTester/rqg_parser.py:156-163 -/
def betweenSub (query : String) : String :=
  match betweenMatch query.toList with
  | none => query
  | some (num1, num2) =>
    PyStr.replace query
      ("BETWEEN " ++ String.ofList num1 ++ " and " ++ String.ofList num2)
      ("BETWEEN " ++ String.ofList num1 ++ " " ++ String.ofList num2)

/-- One word, with `item_list` and `split_word`.
mirrors testsuites/CBLTester/rqg_parser.py:168-178 -/
def joinWord (st : List String × String) (word : String) : List String × String :=
  let (itemList, splitWord) := st
  if PyStr.startswith word "\"" && !PyStr.endswith word "\"" then (itemList, splitWord ++ word)
  else if !PyStr.startswith word "\"" && PyStr.endswith word "\"" then
    (itemList ++ [splitWord ++ " " ++ word], "")
  else if splitWord ≠ "" then (itemList, splitWord ++ " " ++ word)
  else (itemList ++ [word], splitWord)

/-- The words with the quoted ones joined. -/
def joinWords (words : List String) : List String := (words.foldl joinWord ([], "")).1

/-- mirrors testsuites/CBLTester/rqg_parser.py:181-185 -/
def swapParen (item : String) : String :=
  if item = "(" then ")" else if item = ")" then "(" else item

/-- `while opstack[-1] != '('`, and the pop behind it. -/
def popGroup : List String → List Value → Except Exn (List String × List Value)
  | [], _ => .error .indexError
  | item :: opstack, result =>
    if item ≠ "(" then popGroup opstack (result ++ [.str item]) else .ok (opstack, result)

/-- `while prec[token] > prec[opstack[-1]]`. -/
def popTighter (p : Nat) : List String → List Value → Except Exn (List String × List Value)
  | [], _ => .error .indexError
  | item :: opstack, result => do
    let q ← get prec item
    if p > q then popTighter p opstack (result ++ [.str item]) else return (item :: opstack, result)

/-- One round of the loop, with `opstack` and `result`.
mirrors testsuites/CBLTester/rqg_parser.py:191-210 -/
def shuntToken (st : List String × List Value) (token : String) :
    Except Exn (List String × List Value) := do
  let (opstack, result) := st
  if token ∉ operators then return (opstack, result ++ [getOperand token])
  else if token = "(" then return (token :: opstack, result)
  else if token = ")" then popGroup opstack result
  else
    let p ← get prec token
    let (opstack, result) ← popTighter p opstack result
    return (token :: opstack, result)

/-- The words `get_prefix_list` works on. -/
def wordsOf (query : String) : List String := PyStr.splitWs (betweenSub query)

/-- mirrors testsuites/CBLTester/rqg_parser.py:155-213 -/
def getPrefixList (query : String) : Except Exn (List Value) := do
  let items := (joinWords (wordsOf query)).reverse.map swapParen
  let (_, result) ← (["("] ++ items ++ [")"]).foldlM shuntToken ([], [])
  return result.reverse

/-! ## prefix_evaluation -/

/-- The token as an operator, if it is one. -/
def operator? : Value → Option String
  | .str s => if s ∈ operators then some s else none
  | _ => none

/-- `opd.append(opstack.pop())`, `n` times. -/
def popOperands : Nat → List Value → Except Exn (List Value × List Value)
  | 0, opstack => .ok ([], opstack)
  | _ + 1, [] => .error .indexError
  | n + 1, item :: opstack => do
    let (opd, opstack) ← popOperands n opstack
    return (item :: opd, opstack)

/-- The items of an `IN` list up to `]`, which goes too. -/
def popList : List Value → Except Exn (List Value × List Value)
  | [] => .error .indexError
  | .str s :: opstack => do
    if s = "]" then return ([], opstack)
    let (opd, rest) ← popList opstack
    if s = "[" ∨ s = "," then return (opd, rest) else return (.str s :: opd, rest)
  | item :: opstack => do
    let (opd, rest) ← popList opstack
    return (item :: opd, rest)

/-- mirrors testsuites/CBLTester/rqg_parser.py:223-233 -/
def popIn : List Value → Except Exn (List Value × List Value)
  | [] => .error .indexError
  | .str s :: opstack => do
    let var := String.ofList (PyStr.strip s.toList)
    let (opd, opstack) ← popList opstack
    return ([.str var, .list opd], opstack)
  | _ :: _ => .error .attributeError

/-- One round of the loop.
mirrors testsuites/CBLTester/rqg_parser.py:218-239 -/
def evalToken (opstack : List Value) (token : Value) : Except Exn (List Value) := do
  match operator? token with
  | none => return token :: opstack
  | some op =>
    let text ← get operations op
    match PyStr.int text with
    | none => throw .valueError
    | some numOfPop =>
      let (opd, opstack) ←
        if op = "IN" then popIn opstack else popOperands numOfPop.toNat opstack
      return .list (.str op :: opd) :: opstack

/-- mirrors testsuites/CBLTester/rqg_parser.py:216-240 -/
def prefixEvaluation (prefixList : List Value) : Except Exn Value := do
  let opstack ← prefixList.reverse.foldlM evalToken []
  match opstack with
  | [] => throw .indexError
  | item :: _ => return item

/-- `prefix_evaluation(get_prefix_list(query))` -/
def compileWhere (query : String) : Except Exn Value := getPrefixList query >>= prefixEvaluation

end MobileTestkit.L3.RqgParser
