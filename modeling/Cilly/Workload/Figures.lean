import Cilly.Sample
import Cilly.Studio.Worker
import Cilly.Workload.Programs

/-!
# Figures of the workload

What each stage makes of the programs of the workload: its result, or a few figures of it.
-/

namespace Cilly.Workload

/-- A bound of steps that no program of the workload comes near. -/
def amply : Nat := 10 ^ 12

def tokens (n : Nat) : Except Failure (List Token) := Token.ofText (everything n)

def tree (n : Nat) : Except Failure Node := Node.ofText (everything n)

def program (n : Nat) : Except Failure Program := do
  Program.ofTree (Work.signals.map Signal.name) (← Node.ofText (compiled n))

def listing (n : Nat) : Except Failure String := do (← program n).toListing

/-! ## JavaScript -/

def number (i : Int) : Datum := Datum.number (.int i)

def name (s : String) : Datum := Datum.tagged "id" (.text s)

def yes : Datum := Datum.tagged "true" .null

def no : Datum := Datum.tagged "false" .null

/-- Nodes that no text is read as, but that have a JavaScript text all the same. -/
def spareNodes : List Datum :=
  [.list [.text "unary", .text "neg", number 1],
    .list [.text "unary", .text "not", yes],
    .list [.text "binary", .text "eq", number 1, number 1],
    .list [.text "binary", .text "ne", number 1, number 2],
    .list [.text "binary", .text "and", yes, no],
    .list [.text "binary", .text "or", yes, no],
    .list [.text "string", .text "wide"],
    .list [.text "call", .list [.text "binary", .text "+", name "f", name "g"], .list [number 1]],
    .list [.text "define", .text "square", .list [.text "x"],
      .list [.text "statements",
        .list [.list [.text "return", .list [.text "binary", .text "*", name "x", name "x"]]]]],
    .list [.text "return", .null],
    .list [.text "continue"],
    .list [.text "break"]]

/-- The statements of a tree. -/
def statements : Datum → List Datum
  | .list [_, .list ss] => ss
  | _ => []

/-- The length of the JavaScript of all constructs and the spare nodes, so many times. -/
def scriptLength (n : Nat) : Except Failure Nat := do
  let once := statements (← tree 1).toDatum ++ spareNodes
  let all := (List.replicate n once).flatten
  let js ← (Node.ofDatum (.list [.text "program", .list all])).toScript
  return ((← js.display.mapError .fault)).length

/-! ## Running -/

/-- The counts of a stack at the end of a run: pushes, pops, and the greatest depth. -/
def stackCounts (index : String) : Except Failure (Nat × Nat × Nat) := do
  let p ← Program.ofTree [] (← Node.ofText (computing index))
  let (r, m) := (Machine.start p []).run amply
  r.mapError .machine
  return (m.stack.pushes, m.stack.pops, m.stack.maxDepth)

/-- The sizes of what is found on a program: its tokens, its listing, and what it prints. -/
def findingSizes (index : String) : Except Failure (Nat × Nat × Nat) := do
  let f ← (Work.run amply (drawing index)).outcome
  return (f.tokens.length, f.listing.length, f.printed.length)

/-- How much so many trials print; the samples are tried in turn. -/
def trialLength (n : Nat) : Nat :=
  let trials := (List.replicate (n / Sample.all.length + 1) Sample.all).flatten.take n
  trials.foldr (fun s total => (Trial.run amply s.name s.text []).printed.length + total) 0

/-! ## Failures -/

/-- A text, and how far it is taken. -/
inductive Attempt where
  | lex (text : String)
  | parse (text : String)
  | compile (text : String)
  | run (text : String)
  | script (node : Datum)

def Attempt.failure? : Attempt → Option Failure
  | .lex s => errorOf (Token.ofText s)
  | .parse s => errorOf (Node.ofText s)
  | .compile s => errorOf (Trial.prepare s [])
  | .run s => errorOf (do
      let p ← Trial.prepare s []
      ((Machine.start p []).run amply).1.mapError .machine)
  | .script d => errorOf (Node.ofDatum d).toScript
where
  errorOf {α : Type} : Except Failure α → Option Failure
    | .ok _ => none
    | .error f => some f

/-- Attempts that each fail, in every stage. -/
def attempts : List Attempt :=
  [.lex "var a = 1 @ 2;",
    .lex "print(#);",
    .lex "var s = \"open;",
    .parse "var = 1;",
    .parse "var a 1;",
    .parse "if 1 print(1);",
    .parse "while (1;",
    .parse "print(1",
    .parse "1 + ;",
    .parse "\x7b 1;",
    .parse "define f = fun(x \x7b \x7d;",
    .compile "x;",
    .compile "x = 1;",
    .compile "var a = 1; var a = 2;",
    .compile "define f = fun(a, a) \x7b return a; \x7d;",
    .compile "f(1);",
    .compile "(1 + 2)(3);",
    .compile "1 + fun() \x7b return; \x7d;",
    .compile "return 1;",
    .compile "break;",
    .compile "continue;",
    .run "print(1 / 0);",
    .run "print(1 % 0);",
    .run "print(1 + \"a\");",
    .run "print(1 < \"a\");",
    .run "print(-null);",
    .script (.list [.text "unknown"])]

/-- How many attempts fail if all are made so many times. -/
def failureCount (n : Nat) : Nat := n * (attempts.filterMap Attempt.failure?).length

end Cilly.Workload
