import Cilly.Node.Basic

/-!
# JavaScript

A tree is written as JavaScript text, node by node. Statements of a block stand one to a line, indented by
the depth that the block is written at; the depth is raised around the branches of a choice, the body of a
loop and the body of a function, and stays raised if writing them fails.

A name is written as it is, so the text of a name that is no text is the datum itself; it is turned into
text where it is put together with other text.
-/

namespace Cilly

inductive ScriptError where
  /-- There is no rule for a tag; with the whole node. -/
  | noRule (tag node : String)
  | fault (f : Fault)
  deriving DecidableEq, Repr

namespace ScriptError

def category : ScriptError → Category
  | .fault f => f.category
  | .noRule .. => .reported

def message : ScriptError → String
  | .noRule tag node => "No translate_" ++ tag ++ " method for " ++ node
  | .fault f => f.message

end ScriptError

/-- Writing, at a depth of indentation. -/
abbrev ScriptM := ExceptT ScriptError (StateM Nat)

namespace ScriptM

def ofFault {α : Type} (r : Except Fault α) : ScriptM α :=
  match r with
  | .ok a => pure a
  | .error f => throw (.fault f)

def shown (d : Datum) : ScriptM String := ofFault d.display

def indentation : ScriptM String := do return String.ofList (List.replicate (4 * (← get)) ' ')

def raise : ScriptM Unit := modify (· + 1)

def lower : ScriptM Unit := modify (· - 1)

/-- The texts of a list; the first item that is none is a fault. -/
def texts (index : Nat) : List Datum → Except Fault (List String)
  | [] => .ok []
  | .text s :: rest => (texts (index + 1) rest).map (s :: ·)
  | d :: _ => .error (.notJoinable index d.kind)

def joined (separator : String) (items : List Datum) : ScriptM String := do
  return String.intercalate separator (← ofFault (texts 0 items))

/-- Puts a text in front of what was written. -/
def after (front : String) : Datum → Except Fault Datum
  | .text s => .ok (.text (front ++ s))
  | d => .error (.notConcatenable .text d.kind)

/-- The functions that belong to the turtle. -/
def turtleNames : List String := ["forward", "backward", "left", "right", "color", "pen_down", "pen_up"]

/-- The name of a function that is called. -/
def calleeName (x : Datum) : Datum :=
  match x with
  | .text s => if s ∈ turtleNames then .text ("turtle." ++ s) else .text s
  | x => x

/-- Operators that are spelled as words. -/
def operator (op : Datum) : Datum :=
  match op with
  | .text "eq" => .text "==="
  | .text "ne" => .text "!=="
  | .text "and" => .text "&&"
  | .text "or" => .text "||"
  | op => op

/-- The value of a literal, without which it cannot be written. -/
def field : List Datum → Except Fault Datum
  | [] => .error .noItem
  | d :: _ => .ok d

def literal (kind : LiteralKind) (fields : List Datum) : ScriptM String := do
  match kind with
  | .num => shown (← ofFault (field fields))
  | .str => ofFault ((← ofFault (field fields)).scripted)
  | .true => return "true"
  | .false => return "false"
  | .null => return "null"

/-- How many items a node with a tag is taken apart into. -/
def arity? : String → Option Nat
  | "print" | "return" | "expr_stat" => some 2
  | "define" | "assign" | "unary" | "while" | "call" | "fun" => some 3
  | "if" | "binary" => some 4
  | _ => none

/-- Tags whose second item is taken. -/
def needsField (tag : String) : Bool :=
  tag ∈ ["program", "statements", "block", "num", "str", "string", "id"]

/-- What is wrong with a datum that is no node. -/
def oddError (raw : Datum) : ScriptError :=
  match raw.item 0 with
  | .error f => .fault f
  | .ok tag =>
    match raw, tag with
    | .list [_, _, params, _], .text "define" => if params.items?.isNone then .fault .nothingToJoin else noRule raw tag
    | .list [_, params, _], .text "fun" => if params.items?.isNone then .fault .nothingToJoin else noRule raw tag
    | .list items, .text t =>
      match arity? t with
      | some n => .fault (if items.length < n then .tooFewFields n items.length else .tooManyFields n)
      | none => if needsField t then .fault .noItem else noRule raw tag
    | _, _ => noRule raw tag
where
  noRule (raw tag : Datum) : ScriptError :=
    match tag.display, raw.display with
    | .ok t, .ok s => .noRule t s
    | .error f, _ => .fault f
    | _, .error f => .fault f

/-- Whether the alternative of a choice is left out. -/
def isAbsent : Node → Bool
  | .odd raw => !raw.truthy
  | _ => false

mutual

/-- The text of a node. -/
def write : Node → ScriptM Datum
  | .program body => do
    let parts ← writeAll body
    let s ← joined ";\n" parts
    return .text (if parts.isEmpty then s else s ++ ";")
  | .block body => do return .text (← joined ";\n" (← writeLines body))
  | .statements body => do return .text (← joined ";\n" (← writeLines body))
  | .literal kind fields => do return .text (← literal kind fields)
  | .quote fields => do return .text (← ofFault ((← ofFault (field fields)).scripted))
  | .name x => return x
  | .binary op left right => do
    let l ← write left
    let r ← write right
    return .text ("(" ++ (← shown l) ++ " " ++ (← shown (operator op)) ++ " " ++ (← shown r) ++ ")")
  | .unary op operand => do
    let e ← write operand
    match op with
    | .text "neg" => return .text ("(-" ++ (← shown e) ++ ")")
    | .text "not" => return .text ("(!" ++ (← shown e) ++ ")")
    | op => return .text ((← shown op) ++ (← shown e))
  | .assign x value => do
    let v ← write value
    return .text ((← shown x) ++ " = " ++ (← shown v))
  | .ifThen cond yes => do
    let c ← write cond
    let y ← write yes
    let opening ← shown c
    raise
    let inner ← shown y
    lower
    return .text ("if (" ++ opening ++ ") \x7b\n" ++ inner ++ "\n" ++ (← indentation) ++ "\x7d")
  | .ifElse cond yes no => do
    let c ← write cond
    let y ← write yes
    let opening ← shown c
    raise
    let inner ← shown y
    lower
    let head := "if (" ++ opening ++ ") \x7b\n" ++ inner ++ "\n" ++ (← indentation) ++ "\x7d"
    if isAbsent no then return .text head
    raise
    let n ← write no
    let other ← shown n
    lower
    return .text (head ++ " else \x7b\n" ++ other ++ "\n" ++ (← indentation) ++ "\x7d")
  | .loop cond body => do
    let c ← write cond
    let opening ← shown c
    raise
    let b ← write body
    let inner ← shown b
    lower
    return .text ("while (" ++ opening ++ ") \x7b\n" ++ inner ++ "\n" ++ (← indentation) ++ "\x7d")
  | .define x value => do
    let v ← write value
    return .text ("var " ++ (← shown x) ++ " = " ++ (← shown v))
  | .procedure x params body => do
    let names ← joined ", " params
    let b ← write body
    let title ← shown x
    raise
    let inner ← shown b
    lower
    return .text ("function " ++ title ++ "(" ++ names ++ ") \x7b\n" ++ inner ++ "\n" ++ (← indentation) ++ "\x7d")
  | .function params body => do
    let names ← joined ", " params
    raise
    let b ← write body
    let inner ← shown b
    lower
    return .text ("function(" ++ names ++ ") \x7b\n" ++ inner ++ "\n" ++ (← indentation) ++ "\x7d")
  | .call callee args => do
    let f ← write callee
    let parts ← writeAll args
    return .text ((← shown (calleeName f)) ++ "(" ++ (← joined ", " parts) ++ ")")
  | .print args => do
    let parts ← writeAll args
    return .text ("console.log(" ++ (← joined ", " parts) ++ ")")
  | .return => return .text "return"
  | .returnValue value => do
    let v ← write value
    return .text ("return " ++ (← shown v))
  | .exprStat expr => write expr
  | .breakLoop => return .text "break"
  | .continueLoop => return .text "continue"
  | .surplus node _ => write node
  | .nonSequence raw => throw (.fault (.notIterable raw.kind))
  | .odd raw => throw (oddError raw)

def writeAll : List Node → ScriptM (List Datum)
  | [] => return []
  | n :: ns => do
    let head ← write n
    let tail ← writeAll ns
    return head :: tail

/-- The statements of a block, each on its line. -/
def writeLines : List Node → ScriptM (List Datum)
  | [] => return []
  | n :: ns => do
    let front ← indentation
    let written ← write n
    let head ← ofFault (after front written)
    let tail ← writeLines ns
    return head :: tail

end

end ScriptM

namespace Node

/-- The JavaScript of a tree. -/
def script (n : Node) : Except ScriptError Datum := ((ScriptM.write n).run.run 0).1

end Node

end Cilly
