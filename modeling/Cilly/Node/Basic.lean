import Cilly.Datum.Basic

/-!
# Syntax trees

A program is a tree of nodes of one sort: statements and expressions are told apart by where they may
stand, not by their type. Trees can also come from outside as untyped data, and then hold anything; so
next to the nodes proper there are three that stand for what is no node: `odd` for a datum that cannot be
read as one, `nonSequence` for a datum in place of a whole list of nodes, and `surplus` for a node written
with fields to spare. Names and operators are data for the same reason.

`Node.ofDatum` reads a tree from untyped data and `Node.toDatum` writes it: a node is the list of its tag
and its fields.
-/

namespace Cilly

/-- Literals are written with their tag and kept with all their fields, usually one. -/
inductive LiteralKind where
  | num
  | str
  | true
  | false
  | null
  deriving DecidableEq, Repr

def LiteralKind.tag : LiteralKind → String
  | .num => "num"
  | .str => "str"
  | .true => "true"
  | .false => "false"
  | .null => "null"

inductive Node where
  | program (body : List Node)
  | block (body : List Node)
  /-- A sequence of statements that opens no scope; only the script writer knows it. -/
  | statements (body : List Node)
  | define (name : Datum) (value : Node)
  /-- A definition that names its parameters itself; only the script writer knows it. -/
  | procedure (name : Datum) (params : List Datum) (body : Node)
  | assign (name : Datum) (value : Node)
  | print (args : List Node)
  | ifThen (cond yes : Node)
  | ifElse (cond yes no : Node)
  | loop (cond body : Node)
  | breakLoop
  | continueLoop
  | return
  | returnValue (value : Node)
  | exprStat (expr : Node)
  | unary (op : Datum) (operand : Node)
  | binary (op : Datum) (left right : Node)
  | call (callee : Node) (args : List Node)
  | function (params : List Datum) (body : Node)
  | name (x : Datum)
  | literal (kind : LiteralKind) (fields : List Datum)
  /-- A text that only the script writer knows. -/
  | quote (fields : List Datum)
  | surplus (node : Node) (extra : List Datum)
  | nonSequence (raw : Datum)
  | odd (raw : Datum)
  deriving Inhabited, Repr

namespace Node

/-- A node as a list of its tag and fields. -/
def form (tag : String) (fields : List Datum) : Datum := .list (.text tag :: fields)

mutual

def toDatum : Node → Datum
  | .program body => form "program" [sequence body]
  | .block body => form "block" [sequence body]
  | .statements body => form "statements" [sequence body]
  | .define x value => form "define" [x, toDatum value]
  | .procedure x params body => form "define" [x, .list params, toDatum body]
  | .assign x value => form "assign" [x, toDatum value]
  | .print args => form "print" [sequence args]
  | .ifThen cond yes => form "if" [toDatum cond, toDatum yes, .null]
  | .ifElse cond yes no => form "if" [toDatum cond, toDatum yes, toDatum no]
  | .loop cond body => form "while" [toDatum cond, toDatum body]
  | .breakLoop => form "break" []
  | .continueLoop => form "continue" []
  | .return => form "return" [.null]
  | .returnValue value => form "return" [toDatum value]
  | .exprStat expr => form "expr_stat" [toDatum expr]
  | .unary op operand => form "unary" [op, toDatum operand]
  | .binary op left right => form "binary" [op, toDatum left, toDatum right]
  | .call callee args => form "call" [toDatum callee, sequence args]
  | .function params body => form "fun" [.list params, toDatum body]
  | .name x => form "id" [x]
  | .literal kind fields => form kind.tag fields
  | .quote fields => form "string" fields
  | .surplus node extra =>
    match toDatum node with
    | .list items => .list (items ++ extra)
    | d => d
  | .nonSequence raw => raw
  | .odd raw => raw

/-- A list of nodes as a field. -/
def sequence : List Node → Datum
  | [.nonSequence raw] => raw
  | nodes => .list (toData nodes)

def toData : List Node → List Datum
  | [] => []
  | n :: ns => toDatum n :: toData ns

end

/-- One field of a tree: the datum, the datum read as a node, and read as a list of nodes. -/
structure Field where
  raw : Datum
  node : Node
  nodes : List Node

/-- The alternative of a choice or the value of a return: nothing, or a node. -/
def Field.node? (f : Field) : Option Node :=
  match f.raw with
  | .null => none
  | _ => some f.node

/-- A node that keeps to its one list of nodes and may carry more fields. -/
def listed (make : List Node → Node) (raw : Datum) : List Field → Node
  | [] => .odd raw
  | [f] => make f.nodes
  | f :: extra => .surplus (make f.nodes) (extra.map Field.raw)

/-- A function expression, if its parameters can be listed. -/
def functionOf (raw : Datum) (params body : Field) : Node :=
  match params.raw.items? with
  | some names => .function names body.node
  | none => .odd raw

/-- A node without fields that may carry some. -/
def bare (node : Node) : List Field → Node
  | [] => node
  | extra => .surplus node (extra.map Field.raw)

/-- The node with a tag and fields; `raw` is the whole datum. -/
def ofFields (raw : Datum) (tag : String) (fields : List Field) : Node :=
  match tag with
  | "program" => listed .program raw fields
  | "block" => listed .block raw fields
  | "statements" => listed .statements raw fields
  | "define" =>
    match fields with
    | [x, value] => .define x.raw value.node
    | [x, params, body] =>
      match params.raw.items? with
      | some names => .procedure x.raw names body.node
      | none => .odd raw
    | _ => .odd raw
  | "assign" => match fields with
    | [x, value] => .assign x.raw value.node
    | _ => .odd raw
  | "print" => match fields with
    | [args] => .print args.nodes
    | _ => .odd raw
  | "if" => match fields with
    | [cond, yes, no] =>
      match no.node? with
      | some n => .ifElse cond.node yes.node n
      | none => .ifThen cond.node yes.node
    | _ => .odd raw
  | "while" => match fields with
    | [cond, body] => .loop cond.node body.node
    | _ => .odd raw
  | "break" => bare .breakLoop fields
  | "continue" => bare .continueLoop fields
  | "return" => match fields with
    | [value] => match value.node? with
      | some n => .returnValue n
      | none => .return
    | _ => .odd raw
  | "expr_stat" => match fields with
    | [expr] => .exprStat expr.node
    | _ => .odd raw
  | "unary" => match fields with
    | [op, operand] => .unary op.raw operand.node
    | _ => .odd raw
  | "binary" => match fields with
    | [op, left, right] => .binary op.raw left.node right.node
    | _ => .odd raw
  | "call" => match fields with
    | [callee, args] => .call callee.node args.nodes
    | _ => .odd raw
  | "fun" => match fields with
    | [params, body] => functionOf raw params body
    | _ => .odd raw
  | "id" => match fields with
    | [] => .odd raw
    | [x] => .name x.raw
    | x :: extra => .surplus (.name x.raw) (extra.map Field.raw)
  | "num" => .literal .num (fields.map Field.raw)
  | "str" => .literal .str (fields.map Field.raw)
  | "true" => .literal .true (fields.map Field.raw)
  | "false" => .literal .false (fields.map Field.raw)
  | "null" => .literal .null (fields.map Field.raw)
  | "string" => .quote (fields.map Field.raw)
  | _ => .odd raw

mutual

def read : Datum → Field
  | .list items =>
    let fields := readItems items
    let node :=
      match fields with
      | ⟨.text tag, _, _⟩ :: rest => ofFields (.list items) tag rest
      | _ => .odd (.list items)
    ⟨.list items, node, fields.map Field.node⟩
  | .text s => ⟨.text s, .odd (.text s), s.toList.map fun c => .odd (.text c.toString)⟩
  | d => ⟨d, .odd d, [.nonSequence d]⟩

def readItems : List Datum → List Field
  | [] => []
  | d :: ds => read d :: readItems ds

end

/-- The tree that untyped data stands for. -/
def ofDatum (d : Datum) : Node := (read d).node

end Node

end Cilly
