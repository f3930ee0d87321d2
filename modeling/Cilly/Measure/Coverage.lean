import Cilly.Document.Basic
import Cilly.Measure.Benchmark

/-!
# Coverage of the benchmarks

The benchmarks are run under observation, and the report on which lines they reached gains the benchmarks'
number and failures.
-/

namespace Cilly.Coverage

/-- The failures of benchmarks by name. -/
def failures (bs : List Benchmark) : List (String × Document) :=
  bs.filterMap fun b => b.mishap.map fun m => (b.name, .text m.line)

structure Outcome where
  printed : String
  report : Document

/-- The value of a number in a report; anything else counts as zero. -/
def real : Document → Float
  | .whole i => Binary.nearestInt i
  | .real x => x
  | _ => 0

def whole : Document → Int
  | .whole i => i
  | _ => 0

/-- The report with the number of benchmarks and their failures. -/
def annotated (report : Document) (count : Nat) (errors : List (String × Document)) : Document :=
  let about := ((report.get "meta").set "_pti_bench_errors" (.fields errors)).set "_pti_n_benches" (.whole count)
  report.set "meta" about

/-- One line on a report. -/
def summary (report : Document) (count errors : Nat) : String :=
  let totals := report.get "totals"
  "coverage: " ++ floatFixed 1 (real (totals.get "percent_covered")) ++ "% (" ++
    Document.wholeText (whole (totals.get "covered_lines")) ++ "/" ++
    Document.wholeText (whole (totals.get "num_statements")) ++ " stmts, " ++ Decimal.numeral count ++
    " benches, " ++ Decimal.numeral errors ++ " errors)\n"

/-- What comes of running the benchmarks, where `report` is on the lines that they reached. -/
def outcome (report : Document) (loaded : Except Unloadable (List Benchmark)) : Outcome :=
  let (count, errors) : Nat × List (String × Document) :=
    match loaded with
    | .error u => (0, [("<import>", .text u.line)])
    | .ok bs => ((Benchmark.listed bs).length, failures (Benchmark.listed bs))
  ⟨summary report count errors.length, annotated report count errors⟩

end Cilly.Coverage
