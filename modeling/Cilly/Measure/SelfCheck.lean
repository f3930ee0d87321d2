import Cilly.Document.Basic
import Cilly.Measure.Benchmark
import Cilly.Measure.Fingerprint

/-!
# Checking benchmarks

A benchmark is worth measuring if its result is always the same, depends on its parameters, and comes from the
project. The report has what there is to judge that by: fingerprints of its results and of its parameters, and
the times of each call.
-/

namespace Cilly.SelfCheck

/-- A call: the name it has in the report, and its result. -/
structure Call where
  key : String
  result : Datum

/-- The text of a parameter in a key. -/
def shown (d : Datum) : String :=
  match d.display with
  | .ok s => s
  | .error f => f.message

/-- The key of a call: its parameters by name, or a dash. -/
def key (params : List (String × Datum)) : String :=
  let named := params.mergeSort fun a b => !(b.1 < a.1)
  if params.isEmpty then "-" else String.intercalate "," (named.map fun p => p.1 ++ "=" ++ shown p.2)

/-- The calls with parameters. Two calls without come before them, and one with none at all follows on these. -/
def callsFrom (b : Benchmark) (plain : Nat) : List (List (String × Datum)) → List Datum → List Call
  | [], _ => []
  | [] :: rest, results => ⟨key [], b.call plain⟩ :: callsFrom b (plain + 1) rest (results.drop 1)
  | params :: rest, results =>
    ⟨key params, results.head?.getD .null⟩ :: callsFrom b plain rest (results.drop 1)

def calls (b : Benchmark) : List Call := callsFrom b 2 b.params b.byParam

/-- Fields in order; of two with one key the later counts. -/
def fieldsOf (es : List (String × Document)) : Document :=
  .fields (es.foldl (fun acc e => Document.put e.1 e.2 acc) [])

def printOf (d : Datum) : Document := .text (Value.ofDatum d).fingerprint

/-- The same figure for the call without parameters and for every call with. -/
def everywhere (b : Benchmark) (x : Float) : Document :=
  fieldsOf (("<default>", .real x) :: (calls b).map fun c => (c.key, .real x))

def milliseconds (t : Float) : Float := floatRound 3 (t * 1000)

def fraction (t : Float) (p : Profile) : Float := floatRound 3 (t / p.whole)

def entry (kind : String) (prints byParam times own extensions params : Document) : Document :=
  .fields [("ret_type", .text kind), ("fp_stable", prints), ("fp_by_param", byParam), ("repo_tt_ms", times),
    ("repo_frac", own), ("ext_frac", extensions), ("param_fps", params)]

def findings (site : Site) (b : Benchmark) : Document :=
  match b.mishap with
  | some m => entry m.label (.list []) (.fields []) (.fields []) (.fields []) (.fields []) (.list [])
  | none =>
    let own := b.profile.spent site.owns
    let extensions := b.profile.spent Site.isExtension
    entry (b.call 0).kind.name
      (.list [printOf (b.call 0), printOf (b.call 1)])
      (fieldsOf ((calls b).map fun c => (c.key, printOf c.result)))
      (everywhere b (milliseconds own))
      (everywhere b (fraction own b.profile))
      (everywhere b (fraction extensions b.profile))
      (.list (b.params.flatMap fun ps => ps.map fun p => printOf p.2))

def report (site : Site) (bs : List Benchmark) : Document :=
  .fields [("semcheck", .fields ((Benchmark.listed bs).map fun b => (b.name, findings site b)))]

/-- What is reported if there are no benchmarks to be had. -/
def unloadable (u : Unloadable) : Document := .fields [("_import_error", .text u.line)]

end Cilly.SelfCheck
