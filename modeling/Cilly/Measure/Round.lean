import Cilly.Document.Reader
import Cilly.Measure.Coverage
import Cilly.Text.Blank

/-!
# Measuring rounds

A round measures the coverage of the benchmarks, their shares of time, and what the check of them found, with
tools that run outside. It prints a table and appends a row to the history of rounds. If the benchmarks have
become as good as they will, it says so.
-/

namespace Cilly

/-- What comes of running a tool outside. -/
inductive ToolRun where
  | exited (status : Int) (output errors : String)
  | timedOut

/-- What a tool itself printed for errors. -/
def ToolRun.errors : ToolRun → String
  | .exited _ _ errors => errors
  | .timedOut => ""

/-- A tool by its command, and what comes of running it. -/
structure Tool where
  command : String
  run : ToolRun

/-- What a round has to go by. -/
structure RoundInput where
  coverageTool : Tool
  /-- The tools that are there. The revision tool is run before the check. -/
  sharesTool : Option Tool := none
  checkTool : Option (Tool × Tool) := none
  /-- The report that the coverage tool wrote. -/
  coverage : Option String := none
  /-- The text of the file with the benchmarks. -/
  benchText : Option String := none
  /-- The rows of earlier rounds, one a line. -/
  history : Option String := none
  /-- The clock before and after the coverage was measured. -/
  started : Float := 0
  finished : Float := 0
  /-- The time of day. -/
  now : Float := 0

/-- What a round leaves behind. -/
structure RoundOutput where
  status : Option Int := none
  printed : String := ""
  /-- What is printed on the side, for errors. -/
  warned : String := ""
  /-- The commands that were run. -/
  ran : List String := []
  history : Option String := none

namespace Measuring

/-! ## Tools -/

/-- Seconds that a tool may take. -/
def patience : Nat := 120

/-- The last line of a text. -/
def lastLine (s : String) : String :=
  let lines := (String.ofList (Text.stripped s.toList)).splitOn "\n"
  lines.getLast?.getD ""

/-- The document on the last line of what a tool printed; no print stands for an empty one. -/
def answer? (tool : Tool) : Except String Document :=
  match tool.run with
  | .timedOut =>
    .error ("TimeoutExpired: Command '" ++ tool.command ++ "' timed out after " ++ Decimal.numeral patience ++
      " seconds")
  | .exited _ output _ =>
    if Text.allBlank output then .ok (.fields [])
    else
      match Document.ofText? (lastLine output) with
      | some d => .ok d
      | none => .error "JSONDecodeError: Expecting value: line 1 column 1 (char 0)"

/-- The answer of a tool, or an empty one with a warning. -/
def consult (title : String) (tool : Tool) : Document × String :=
  match answer? tool with
  | .ok d => (d, tool.run.errors)
  | .error e => (.fields [], tool.run.errors ++ "[" ++ title ++ " runner: " ++ e ++ "]\n")

/-! ## The table of files -/

def padRight (width : Nat) (s : String) : String := s ++ String.ofList (List.replicate (width - s.length) ' ')

def padLeft (width : Nat) (s : String) : String := String.ofList (List.replicate (width - s.length) ' ') ++ s

/-- Numbers in a row as ranges. -/
def ranges : List Int → List (Int × Int)
  | [] => []
  | n :: rest =>
    match ranges rest with
    | (lo, hi) :: more => if lo = n + 1 then (n, hi) :: more else (n, n) :: (lo, hi) :: more
    | [] => [(n, n)]

def rangeText (r : Int × Int) : String :=
  if r.1 = r.2 then Document.wholeText r.1 else Document.wholeText r.1 ++ "-" ++ Document.wholeText r.2

/-- A line of the table, without what comes last. -/
def tableLine (width : Nat) (name statements missed covered : String) : String :=
  padRight width name ++ "  " ++ padLeft 5 statements ++ "  " ++ padLeft 4 missed ++ "  " ++ padLeft 5 covered

def figures (width : Nat) (name : String) (totals : Document) : String :=
  let statements := Coverage.whole (totals.get "num_statements")
  let covered := Coverage.whole (totals.get "covered_lines")
  tableLine width name (Document.wholeText statements) (Document.wholeText (statements - covered))
    (floatFixed 0 (Coverage.real (totals.get "percent_covered")) ++ "%")

def fileLine (width : Nat) (name : String) (file : Document) : String :=
  let missing := ranges ((file.get "missing_lines").items.map Coverage.whole)
  let tail := if missing.isEmpty then "" else "  " ++ String.intercalate ", " (missing.map rangeText)
  figures width name (file.get "summary") ++ tail ++ "\n"

/-- The table of all files and their total. -/
def table (report : Document) : String :=
  let files := (report.get "files").entries.mergeSort fun a b => !(b.1 < a.1)
  let width := files.foldl (fun w f => max w f.1.length) 4
  let rule := String.ofList (List.replicate (width + 42) '-') ++ "\n"
  tableLine width "Name" "Stmts" "Miss" "Cover" ++ "  Missing\n" ++ rule ++
    String.join (files.map fun f => fileLine width f.1 f.2) ++ rule ++
    figures width "TOTAL" (report.get "totals") ++ "\n"

/-! ## Shares of time -/

/-- The least share that is good enough. -/
def shareBound : Float := 45

/-- A number, or a text that is read as one. -/
def realOf : Document → Float
  | .text s => (Numeral.real? (Text.stripped s.toList)).getD 0
  | d => Coverage.real d

def sharesOf (answer : Document) : List (String × Float) :=
  (answer.get "repo_time_pct").entries.map fun e => (e.1, realOf e.2)

def below (shares : List (String × Float)) : Nat := (shares.filter fun s => s.2 < shareBound).length

def shareLine (s : String × Float) : String :=
  "  " ++ (if s.2 < shareBound then "*" else " ") ++ " " ++ padRight 32 s.1 ++ padLeft 6 (floatFixed 1 s.2) ++ "%\n"

def sharesTable (shares : List (String × Float)) : String :=
  if shares.isEmpty then ""
  else "\nrepo_time (target 50%; * = below 45%):\n" ++ String.join (shares.map shareLine)

/-! ## Verdicts on benchmarks -/

/-- What the check of a benchmark comes to. -/
inductive Verdict where
  | ok
  | failed
  | nothing
  | unstable
  | constant
  | echo
  | lowShare
  deriving DecidableEq, Repr

def Verdict.label : Verdict → String
  | .ok => "ok"
  | .failed => "error"
  | .nothing => "returns-none"
  | .unstable => "unstable"
  | .constant => "constant"
  | .echo => "returns-input"
  | .lowShare => "low-repo-time"

def texts (ds : List Document) : List String :=
  ds.filterMap fun d => match d with
    | .text s => some s
    | _ => none

/-- Judges what the check found on a benchmark. -/
def judge (found : Document) : Verdict :=
  let kind := (texts [found.get "ret_type"]).headD ""
  let stable := texts (found.get "fp_stable").items
  let byParam := texts ((found.get "fp_by_param").entries.map Prod.snd)
  let params := texts (found.get "param_fps").items
  if Site.startsWith "<" kind then .failed
  else if kind = "NoneType" then .nothing
  else if stable.any (· ≠ stable.headD "") then .unstable
  else if 2 ≤ byParam.length ∧ byParam.all (· = byParam.headD "") then .constant
  else if (stable ++ byParam).any params.contains then .echo
  else if Coverage.real ((found.get "repo_frac").get "<default>") < shareBound / 100 then .lowShare
  else .ok

def verdictsOf (answer : Document) : List (String × Verdict) :=
  (answer.get "semcheck").entries.map fun e => (e.1, judge e.2)

/-! ## The history -/

/-- The rows of a history; blank lines are none. -/
def rowsOf (history : Option String) : List Document :=
  (((history.getD "").splitOn "\n").filter fun l => !Text.allBlank l).map fun l =>
    (Document.ofText? l).getD (.fields [])

/-- The numbers of benchmarks below the bound in the rounds that counted them. -/
def belowCounts (rows : List Document) : List Nat :=
  rows.filterMap fun r => match r.get "n_below_repo_time" with
    | .whole i => some i.toNat
    | _ => none

def isWordChar (c : Char) : Bool := c.isAlphanum || c = '_' || 0x80 ≤ c.toNat

/-- Whether a line begins the definition of a benchmark. -/
def definesBenchmark (line : String) : Bool :=
  match Document.after? ("def " ++ Benchmark.mark).toList line.toList with
  | none => false
  | some rest => ((rest.dropWhile isWordChar).dropWhile Text.isBlank).head? = some '('

def benchmarkCount (text : Option String) : Nat :=
  (((text.getD "").splitOn "\n").filter definesBenchmark).length

/-! ## Stopping -/

/-- Coverage that is needed before the rounds may stop, in percent. -/
def coverageBound : Float := 60

/-- Rounds without improvement after which they stop. -/
def stagnation : Nat := 3

def least (ns : List Nat) : Nat := ns.foldl min (ns.headD 0)

/-- Why the rounds may stop, if they may. The counts end with this round's. -/
def stopReason? (coverage : Float) (counts : List Nat) : Option String :=
  let earlier := counts.take (counts.length - stagnation)
  let recent := counts.drop (counts.length - stagnation)
  if coverage < coverageBound then none
  else if counts.getLast? = some 0 then some "0 below"
  else if !earlier.isEmpty && least earlier ≤ least recent then
    some ("no improvement in " ++ Decimal.numeral stagnation ++ " rounds; best " ++
      Decimal.numeral (least counts) ++ " below")
  else none

def stopLine : Option String → String
  | none => ""
  | some reason =>
    "\n>>> STOP: repo_time converged (" ++ reason ++ "). Finalize microbench.py now. <<<\n"

/-! ## A round -/

/-- A round after its coverage was measured. -/
def record (input : RoundInput) (report : Document) (shares : List (String × Float))
    (verdicts : List (String × Verdict)) : RoundOutput :=
  let rows := rowsOf input.history
  let number := rows.length + 1
  let totals := report.get "totals"
  let coverage := Coverage.real (totals.get "percent_covered")
  let covered := Coverage.whole (totals.get "covered_lines")
  let statements := Coverage.whole (totals.get "num_statements")
  let benches := benchmarkCount input.benchText
  let elapsed := input.finished - input.started
  let wall :=
    match rows.getLast? with
    | some row => floatRound 2 (input.now - Coverage.real (row.get "ts"))
    | none => 0
  let counted : Option Nat := if shares.isEmpty then none else some (below shares)
  let row : Document := .fields [
    ("round", .whole number), ("ts", .real input.now), ("wall_since_prev_s", .real wall),
    ("coverage_pct", .real coverage), ("covered_lines", .whole covered), ("num_statements", .whole statements),
    ("n_bench_fns", .whole benches),
    ("n_bench_errors", .whole ((report.get "meta").get "_pti_bench_errors").entries.length),
    ("cov_measure_s", .real (floatRound 3 elapsed)),
    ("repo_time_pct", .fields (shares.map fun s => (s.1, .real s.2))),
    ("n_below_repo_time", (counted.map fun n => Document.whole n).getD .null),
    ("semcheck", .fields (verdicts.map fun v => (v.1, .text v.2.label))),
    ("n_not_self_checking", .whole (verdicts.filter fun v => v.2 ≠ .ok).length)]
  let belowText :=
    match counted with
    | none => ""
    | some n =>
      Decimal.numeral n ++ "/" ++ Decimal.numeral shares.length ++ " below repo_time 45%, "
  let headline :=
    "\n[round " ++ Decimal.numeral number ++ ": " ++ Decimal.numeral benches ++ " benches, " ++
      floatFixed 1 coverage ++ "% covered, " ++ belowText ++ "measured in " ++ floatFixed 1 elapsed ++ "s]\n"
  let stop :=
    match counted with
    | none => none
    | some n => stopReason? coverage (belowCounts rows ++ [n])
  { printed := table report ++ sharesTable shares ++ headline ++ stopLine stop
    history := some (input.history.getD "" ++ row.render ++ "\n") }

/-- A round: coverage first, and if that was measured the rest. -/
def round (input : RoundInput) : RoundOutput :=
  let cover := input.coverageTool
  let (status, output, errors) : Int × String × String :=
    match cover.run with
    | .exited status output errors => (status, output, errors)
    | .timedOut => (1, "", "")
  if status ≠ 0 then
    { status := some status
      printed := "coverage measurement failed (exit " ++ Document.wholeText status ++ ")\n" ++ output ++ "\n"
      warned := errors, ran := [cover.command], history := input.history }
  else
    let report := (input.coverage.bind Document.ofText?).getD (.fields [])
    let (shares, sharesWarning) :=
      match input.sharesTool with
      | some tool => consult "repotime" tool
      | none => (.fields [], "")
    let (found, checkWarning) :=
      match input.checkTool with
      | some (_, tool) => consult "semcheck" tool
      | none => (.fields [], "")
    let tools := cover :: input.sharesTool.toList ++
      (input.checkTool.toList.flatMap fun t => [t.1, t.2])
    { record input report (sharesOf shares) (verdictsOf found) with
      warned := errors ++ sharesWarning ++ checkWarning
      ran := tools.map Tool.command }

end Measuring

end Cilly
