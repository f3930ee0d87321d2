import Cilly.Failure

/-!
# Sample programs

Programs that come with the library, each with a name and a title, and the report of trying one out.
-/

namespace Cilly

structure Sample where
  name : String
  title : String
  text : String
  deriving Repr

namespace Sample

def arithmetic : Sample where
  name := "Basic Arithmetic"
  title := "基础算术"
  text := "\nprint(1 + 2 * 3);\nprint(4 * 5);\n"

def scoping : Sample where
  name := "Variable Scoping"
  title := "变量作用域"
  text :=
    "\nvar x1 = 100;\n\x7b\n    var x1 = 200;\n    \x7b\n        var x1 = 300;\n" ++
    "        print(\"inner x1\", x1);\n    \x7d\n    print(\"middle x1\", x1);\n\x7d\n" ++
    "print(\"outer x1\", x1);\n"

def conditionals : Sample where
  name := "Conditional Statements"
  title := "条件语句"
  text :=
    "\nif(1 > 2)\n    print(3);\nelse\n    print(4);\n\n" ++
    "if(1 > 2 && 5 > 4)\n    print(30);\nelse\n    print(42);\n"

def names : Sample where
  name := "Variable Name Display"
  title := "变量名显示"
  text := "\nvar a = 100;\nvar b = 200;\nvar c = a + b * 5;\nprint(c);\n"

def recursion : Sample where
  name := "Mutual Recursion"
  title := "相互递归"
  text :=
    "\ndefine odd = fun(n)\x7b\n  if(n == 0)\n    return false;\n  else\n   return even(n-1);\n\x7d;\n" ++
    "define even = fun(n) \x7b\n if(n==0)\n   return true;\n else\n   return odd(n-1);\n\x7d;\n\n" ++
    "print(\"even(3)=\", even(3));\nprint(\"odd(3)=\", odd(3));\n"

def fern : Sample where
  name := "Fern Turtle Graphics"
  title := "海龟绘图：蕨类"
  text :=
    "\ndefine fern = fun(len) \x7b\n    if(len > 5)\x7b\n        forward(len);\n        right(10);\n" ++
    "        fern(len - 10);\n        left(40);\n        fern(len - 10);\n        right(30);\n" ++
    "        backward(len);\n    \x7d\n\x7d;\n\n" ++
    "pencolor(\"green\");\nleft(90);\npenup();\nbackward(200);\npendown();\nfern(100);\n"

def all : List Sample := [arithmetic, scoping, conditionals, names, recursion, fern]

def named? (name : String) : Option Sample := all.find? fun s => s.name = name

end Sample

/-- What trying out a program prints, and how it fails if it does. -/
structure Trial where
  printed : String
  failure : Option Failure := none

namespace Trial

/-- The program that is tried out. -/
def prepare (text : String) (primitives : List String) : Except Failure Program := do
  Program.ofTree primitives (← Node.ofText text)

/-- The last part: listing and running. No signal is connected. -/
def perform (budget : Nat) (program : Program) : Trial :=
  let head := "\nDisassembly with variable names:\n"
  match program.toListing with
  | .error f => ⟨head, some f⟩
  | .ok _ =>
    match (Machine.start program []).run budget with
    | (.ok (), m) => ⟨head ++ "\nActual output:\n" ++ m.printed, none⟩
    | (.error e, m) => ⟨head ++ "\nActual output:\n" ++ m.printed, some (.machine e)⟩

/-- Tries out a program text under a name. -/
def run (budget : Nat) (name text : String) (primitives : List String) : Trial :=
  let head := "\n=== Testing " ++ name ++ " ===\nProgram:\n" ++ text ++ "\n"
  match prepare text primitives with
  | .error f => ⟨head, some f⟩
  | .ok program =>
    let rest := perform budget program
    ⟨head ++ rest.printed, rest.failure⟩

end Trial

end Cilly
