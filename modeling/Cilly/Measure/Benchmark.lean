import Cilly.Datum.Basic

/-!
# Benchmarks and their profiles

What is known of a benchmark that was measured: its results, how it failed, and the profile of a call. A row
of a profile is a file and the time that was spent in it, in seconds.

Time is spent in the project itself, in extensions, or elsewhere. The benchmarks, the tools that measure
them, and what was only put into the project's directory do not count as the project.
-/

namespace Cilly

/-- How a benchmark can fail. -/
inductive Mishap where
  | raised (kind message : String)
  | timedOut
  deriving DecidableEq, Repr

namespace Mishap

def label : Mishap → String
  | .raised kind _ => "<" ++ kind ++ ">"
  | .timedOut => "<timeout>"

def line : Mishap → String
  | .raised kind message => kind ++ ": " ++ message
  | .timedOut => "timeout"

end Mishap

structure Profile where
  rows : List (String × Float) := []
  total : Float := 0

structure Benchmark where
  name : String
  /-- The results of calls without parameters, one after the other; the last one repeats. -/
  returns : List Datum := []
  /-- The parameters of further calls. -/
  params : List (List (String × Datum)) := []
  /-- The results of those calls. -/
  byParam : List Datum := []
  mishap : Option Mishap := none
  profile : Profile := {}

/-- Where the measured project lies. -/
structure Site where
  root : String
  /-- The name of the file with the benchmarks. -/
  benchFile : String
  /-- How the names of the measuring tools begin. -/
  toolMark : String

namespace Site

/-- Directories whose files were only put into the project. -/
def foreignDirectories : List String := ["site-packages", "vendor", "build"]

def startsWith (start s : String) : Bool := start.toList.isPrefixOf s.toList

def endsWith (finish s : String) : Bool := finish.toList.isSuffixOf s.toList

/-- The last part of a path. -/
def baseName (path : String) : String := (path.splitOn "/").getLast?.getD path

def owns (site : Site) (path : String) : Bool :=
  let directory := site.root ++ "/"
  let parts := (String.ofList (path.toList.drop directory.length)).splitOn "/"
  startsWith directory path && !(parts.any fun p => foreignDirectories.contains p) &&
    baseName path != site.benchFile && !startsWith site.toolMark (baseName path)

/-- Compiled code: what is built in, and shared libraries. -/
def isExtension (path : String) : Bool := path = "~" || endsWith ".so" path || endsWith ".pyd" path

/-- The name under which time outside the project is shown. -/
def shownAs (site : Site) (path : String) : String :=
  let name := baseName path
  if path = "~" then "builtins"
  else if name = site.benchFile then "<run() body>"
  else
    let stem := (name.toList.reverse.dropWhile (· ≠ '.')).drop 1
    if (stem.all (· = '.')) then name else String.ofList stem.reverse

end Site

namespace Profile

/-- The time in rows that fulfil a condition. -/
def spent (p : Profile) (cond : String → Bool) : Float :=
  p.rows.foldl (fun t row => if cond row.1 then t + row.2 else t) 0

/-- The total, kept away from zero. -/
def whole (p : Profile) : Float := if p.total < 1e-9 then 1e-9 else p.total

/-- The time outside the project by the name it is shown as, in order of first appearance. -/
def outside (site : Site) (p : Profile) : List (String × Float) :=
  let add (acc : List (String × Float)) (name : String) (t : Float) : List (String × Float) :=
    if acc.any (·.1 = name) then acc.map fun e => if e.1 = name then (e.1, e.2 + t) else e
    else acc ++ [(name, t)]
  p.rows.foldl (fun acc row => if site.owns row.1 then acc else add acc (site.shownAs row.1) row.2) []

end Profile

namespace Benchmark

/-- What the names of benchmarks begin with. -/
def mark : String := "bench_"

/-- The benchmarks among what a file defines, by name. -/
def listed (bs : List Benchmark) : List Benchmark :=
  (bs.filter fun b => Site.startsWith mark b.name).mergeSort fun a b => !(b.name < a.name)

/-- The result of a call without parameters, counted from 0. -/
def call (b : Benchmark) (n : Nat) : Datum := (b.returns[n]?).getD (b.returns.getLast?.getD .null)

end Benchmark

/-- Why the benchmarks could not be loaded. -/
structure Unloadable where
  line : String
  deriving DecidableEq, Repr

end Cilly
