import Cilly.Document.Basic
import Cilly.Measure.Benchmark

/-!
# Shares of time

For each benchmark the share of time that was spent in the project, in percent, and where outside of it most
of the time went.
-/

namespace Cilly.Shares

/-- A time as a part of a whole, in percent with one place. -/
def percent (time whole : Float) : Float := floatRound 1 (100 * time / whole)

/-- The two names outside the project that took most time. -/
def hottest (site : Site) (p : Profile) : List (String × Float) :=
  (((p.outside site).filter fun e => 0 < e.2).mergeSort fun a b => !(a.2 < b.2)).take 2

/-- The share of the project; a benchmark that failed has none. -/
def projectShare (site : Site) (b : Benchmark) : Float :=
  match b.mishap with
  | some _ => -1
  | none => percent (b.profile.spent site.owns) b.profile.whole

def hotRow (share : Float) (name : String) : Document := .list [.real share, .text name]

def hotRows (site : Site) (b : Benchmark) : Document :=
  match b.mishap with
  | some m => .list [hotRow 0 m.label]
  | none => .list ((hottest site b.profile).map fun e => hotRow (percent e.2 b.profile.whole) e.1)

def report (site : Site) (bs : List Benchmark) : Document :=
  let listed := Benchmark.listed bs
  .fields [
    ("repo_time_pct", .fields (listed.map fun b => (b.name, .real (projectShare site b)))),
    ("hot_ext", .fields (listed.map fun b => (b.name, hotRows site b)))]

end Cilly.Shares
