/-!
# Programs to measure with

Texts that together use every construct of the language. Copies of a text that defines names are put into
blocks, so that the names do not meet.
-/

namespace Cilly.Workload

/-- Lines one below the other. -/
def lines (ls : List String) : String := String.join (ls.map (· ++ "\n"))

/-- Definitions, assignments and arithmetic. -/
def expressions : String :=
  lines [
    "var a = 1 + 2 * 3 - 4 / 2 % 2;",
    "var b = (a + 1) * 2;",
    "var c = 3.5 + 0.25;",
    "print(a, b, c);",
    "print();",
    "a = a + 1;",
    "b = b - 1;"]

/-- Literals, comparisons and conditions. -/
def conditions : String :=
  lines [
    "var t = true;",
    "var f = false;",
    "var n = null;",
    "var s = \"hello world\";",
    "if (t && !f) \x7b print(1 > 0, 1 >= 1, 1 < 2, 1 <= 2); \x7d",
    "if (f || t) \x7b print(1 == 1, 1 != 2); \x7d else \x7b print(n); \x7d",
    "if (1 > 2) print(0); else print(1);",
    "if (1 > 2) print(0);",
    "-5;"]

def basics : String := expressions ++ conditions

/-- A loop that is left early. It is not meant to be run: leaving a block by a jump keeps its scope. -/
def jumps : String :=
  lines [
    "var i = 0;",
    "while (i < 20) \x7b",
    " if (i == 3) \x7b i = i + 1; continue; \x7d",
    " if (i >= 15) \x7b break; \x7d",
    " i = i + 1;",
    "\x7d",
    "print(i);"]

/-- A loop that runs to its end. -/
def loop : String :=
  lines [
    "var i = 0;",
    "while (i < 20) \x7b i = i + 1; if (i == 3) print(i); \x7d",
    "print(i);"]

def fibonacci : String :=
  lines ["define fib = fun(n) \x7b if (n < 2) return n; return fib(n - 1) + fib(n - 2); \x7d;"]

/-- Prints the Fibonacci number at an index. -/
def printFibonacci (index : String) : String := lines ["print(fib(" ++ index ++ "));"]

/-- Functions with and without results, in a block and recursive. -/
def functions (index : String) : String :=
  lines [
    "define add = fun(x, y) \x7b return x + y; \x7d;",
    "define greet = fun() \x7b print(\"hi\"); return; \x7d;"] ++
  fibonacci ++
  lines [
    "define noop = fun() \x7b 1 + 1; \x7d;",
    "\x7b define inner = fun(z) \x7b return z * z; \x7d; print(inner(3)); \x7d",
    "print(add(2, 3));",
    "greet();",
    "noop();"] ++
  printFibonacci index

/-- Every command of the turtle. -/
def turtle : String :=
  lines [
    "forward(10);",
    "backward(5);",
    "left(90);",
    "right(45);",
    "penup();",
    "pendown();",
    "pencolor(\"red\");",
    "pensize(2);",
    "speed(5);",
    "reset();"]

/-- A text in a block of its own. -/
def block (text : String) : String := "\x7b\n" ++ text ++ "\x7d\n"

def copies (n : Nat) (text : String) : String := String.join (List.replicate n text)

/-- All constructs one after the other, so many times. -/
def everything (n : Nat) : String := copies n (basics ++ jumps ++ functions "8" ++ turtle)

/-- A program that compiles, with so many blocks. -/
def compiled (n : Nat) : String := functions "8" ++ turtle ++ copies n (block (basics ++ jumps))

/-- A program that runs, with so many blocks. -/
def runnable (n : Nat) : String := functions "8" ++ copies n (block (basics ++ loop))

/-- A program that runs and computes a Fibonacci number. -/
def computing (index : String) : String := basics ++ loop ++ functions index

/-- A program that runs, draws, and computes a Fibonacci number. -/
def drawing (index : String) : String := basics ++ loop ++ turtle ++ fibonacci ++ printFibonacci index

end Cilly.Workload
