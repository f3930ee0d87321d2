import Cilly.Proofs.Acceptance
import Cilly.Proofs.Correctness
import Cilly.Proofs.Scripts

/-!
# Blocks in scripts

Programs of definitions, assignments, `print` and blocks are written as scripts without any nesting: a block becomes the lines of its
statements. A script has one variable for each name (`Script.exec`), whereas a block has variables of its own. So a definition in a block
overwrites a variable of the same name that is visible there.

If no definition is of a name that is visible already, the script prints what the program prints (`Script.prints_as_compiled`). The values are
followed through both at once: each variable of the program that is visible has the value that the script has under its name
(`Script.Shares`).
-/

namespace Cilly

open Acting Node List Reference

/-! ## Scripts -/

namespace Script

inductive Term where
  | number (n : Nat)
  | name (x : String)
  | sum (left right : Term)
  | product (left right : Term)

inductive Line where
  | define (x : String) (e : Term)
  | assign (x : String) (e : Term)
  | log (es : List Term)
  | blank

def Term.text : Term → String
  | .number n => Decimal.numeral n
  | .name x => x
  | .sum l r => "(" ++ l.text ++ " " ++ "+" ++ " " ++ r.text ++ ")"
  | .product l r => "(" ++ l.text ++ " " ++ "*" ++ " " ++ r.text ++ ")"

def Line.text : Line → String
  | .define x e => "var " ++ x ++ " = " ++ e.text
  | .assign x e => x ++ " = " ++ e.text
  | .log es => "console.log(" ++ String.intercalate ", " (es.map Term.text) ++ ")"
  | .blank => ""

/-- Lines as they are written. -/
def text (lines : List Line) : String :=
  let s := String.intercalate ";\n" (lines.map Line.text)
  if lines.isEmpty then s else s ++ ";"

/-- A script has one variable for each name, wherever it is defined; some have no value yet. -/
abbrev Env := String → Option Nat

def Env.set (x : String) (v : Nat) (env : Env) : Env := fun y => if y = x then some v else env y

def Term.value (env : Env) : Term → Option Nat
  | .number n => some n
  | .name x => env x
  | .sum l r => do return (← l.value env) + (← r.value env)
  | .product l r => do return (← l.value env) * (← r.value env)

def values (env : Env) : List Term → Option (List Nat)
  | [] => some []
  | e :: es => do return (← e.value env) :: (← values env es)

/-- What lines print, and the variables after them. A definition gives the variable of that name a value, be it the first one or not. -/
def exec (env : Env) : List Line → Option (Env × List (List Nat))
  | [] => some (env, [])
  | .define x e :: rest | .assign x e :: rest => do
    let v ← e.value env
    exec (env.set x v) rest
  | .log es :: rest => do
    let vs ← values env es
    let (env', printed) ← exec env rest
    return (env', vs :: printed)
  | .blank :: rest => exec env rest

/-- The values that a script prints, line by line. -/
def run (lines : List Line) : Option (List (List Nat)) := (exec (fun _ => none) lines).map (·.2)

theorem exec_append {env env' : Env} {lines rest : List Line} {printed : List (List Nat)}
    (h : exec env lines = some (env', printed)) :
    exec env (lines ++ rest) = (exec env' rest).map fun (env'', more) => (env'', printed ++ more) := by
  induction lines generalizing env printed with
  | nil =>
    cases h
    simp
  | cons line lines ih =>
    cases line with
    | define x e | assign x e =>
      rw [exec, Option.bind_eq_bind, Option.bind_eq_some_iff] at h
      obtain ⟨v, hv, h⟩ := h
      rw [cons_append, exec, hv]
      exact ih h
    | log es =>
      rw [exec, Option.bind_eq_bind, Option.bind_eq_some_iff] at h
      obtain ⟨vs, hvs, h⟩ := h
      rw [Option.bind_eq_bind, Option.bind_eq_some_iff] at h
      obtain ⟨⟨env₁, printed₁⟩, hrest, h⟩ := h
      cases h
      rw [cons_append, exec, hvs, ih hrest]
      cases exec env' rest <;> rfl
    | blank =>
      rw [exec] at h
      rw [cons_append, exec]
      exact ih h

end Script

/-! ## Programs of blocks -/

namespace Node

/-- Sums and products of whole numbers and names. -/
inductive IsSum : Node → Prop
  | number (n : Nat) : IsSum (.literal .num [.int n])
  | name (x : Datum) : IsSum (.name x)
  | sum {l r : Node} : IsSum l → IsSum r → IsSum (.binary (.text "+") l r)
  | product {l r : Node} : IsSum l → IsSum r → IsSum (.binary (.text "*") l r)

mutual

/-- Definitions, assignments, `print` and blocks. -/
inductive IsPlain : Node → Prop
  | define (x : Datum) {value : Node} : IsSum value → IsPlain (.define x value)
  | assign (x : Datum) {value : Node} : IsSum value → IsPlain (.assign x value)
  | print {args : List Node} : (∀ e ∈ args, IsSum e) → IsPlain (.print args)
  | block {body : List Node} : ArePlain body → IsPlain (.block body)

inductive ArePlain : List Node → Prop
  | nil : ArePlain []
  | cons {n : Node} {ns : List Node} : IsPlain n → ArePlain ns → ArePlain (n :: ns)

end

/-- An expression as it is written. -/
def term : Node → Script.Term
  | .literal .num [.int i] => .number i.toNat
  | .name (.text x) => .name x
  | .binary (.text "+") l r => .sum (term l) (term r)
  | .binary (.text "*") l r => .product (term l) (term r)
  | _ => .number 0

mutual

/-- The lines that a statement is written as. A block has no line of its own unless it is empty. -/
def lines : Node → List Script.Line
  | .define (.text x) e => [.define x (term e)]
  | .assign (.text x) e => [.assign x (term e)]
  | .print es => [.log (es.map term)]
  | .block body => if body.isEmpty then [.blank] else linesAll body
  | _ => []

def linesAll : List Node → List Script.Line
  | [] => []
  | n :: ns => lines n ++ linesAll ns

end

theorem lines_ne_nil : ∀ {n : Node}, IsPlain n → WrittenStat Token.Read n → lines n ≠ []
  | _, .define x _, .define hx _ | _, .assign x _, .assign hx _ => by
    obtain ⟨s, rfl, -⟩ := hx.name rfl
    simp [lines]
  | _, .print _, _ => by simp [lines]
  | _, .block .nil, _ => by simp [lines]
  | _, .block (.cons hn _), .block (.cons hn' _) => by simp [lines, linesAll, lines_ne_nil hn hn']

end Node

/-! ## Writing scripts -/

theorem Datum.intText_of_long {n : Nat} (h : ¬ Script.Short n) : Datum.intText n = .error (.digitLimit none) := by
  rw [Datum.intText, Int.natAbs_natCast, if_pos (Nat.le_of_not_lt h)]

theorem intercalate_append (separator : String) {xs ys : List String} (hxs : xs ≠ []) (hys : ys ≠ []) :
    String.intercalate separator (xs ++ ys) = String.intercalate separator xs ++ separator ++ String.intercalate separator ys := by
  induction xs with
  | nil => exact absurd rfl hxs
  | cons x xs ih =>
    cases xs with
    | nil => rw [singleton_append, String.intercalate_cons_of_ne_nil hys, String.intercalate_singleton]
    | cons x' xs =>
      rw [cons_append, String.intercalate_cons_of_ne_nil (by simp), ih (by simp), String.intercalate_cons_cons]
      simp only [String.append_assoc]

theorem intercalate_flatMap (separator : String) (f : Node → List String) : ∀ ns : List Node, (∀ n ∈ ns, f n ≠ []) →
    String.intercalate separator (ns.map fun n => String.intercalate separator (f n)) = String.intercalate separator (ns.flatMap f)
  | [], _ => rfl
  | [n], _ => by simp
  | n :: n' :: ns, h => by
    obtain ⟨hn, hrest⟩ := forall_mem_cons.mp h
    have hne : (n' :: ns).flatMap f ≠ [] := by
      rw [flatMap_cons]
      exact append_ne_nil_of_left_ne_nil (hrest n' (mem_cons_self ..)) _
    rw [map_cons, String.intercalate_cons_of_ne_nil (by simp), intercalate_flatMap separator f (n' :: ns) hrest,
      show (n :: n' :: ns).flatMap f = f n ++ (n' :: ns).flatMap f from flatMap_cons, intercalate_append separator hn hne]

namespace ScriptM

theorem scriptAt_sum : ∀ {e : Node}, IsSum e → WrittenExpr Token.Read e → ∀ depth : Nat, scriptAt e depth = (term e).text
  | _, .number n, .literal ht, _ => by
    have hbrief := ht.brief n rfl
    rw [Int.natAbs_natCast] at hbrief
    show wording (.int n) = _
    rw [wording_int hbrief]
    rfl
  | _, .name x, .name hx, _ => by
    obtain ⟨s, rfl, -⟩ := hx.name rfl
    rfl
  | _, .sum hl hr, .binary _ hl' hr', depth | _, .product hl hr, .binary _ hl' hr', depth => by
    rw [scriptAt, scriptAt_sum hl hl', scriptAt_sum hr hr']
    rfl

theorem scriptsAt_sum : ∀ {es : List Node}, (∀ e ∈ es, IsSum e) → WrittenExprs Token.Read es → ∀ depth : Nat,
    scriptsAt es depth = es.map fun e => (term e).text
  | _, _, .nil, _ => rfl
  | _, hsum, .cons he hes, depth => by
    obtain ⟨hfirst, hrest⟩ := forall_mem_cons.mp hsum
    rw [scriptsAt, scriptAt_sum hfirst he, scriptsAt_sum hrest hes, map_cons]

/-- Lines with nothing in between but their separators. -/
def body (lines : List Script.Line) : String := String.intercalate ";\n" (lines.map Script.Line.text)

theorem body_linesAll {ns : List Node} (h : ∀ n ∈ ns, lines n ≠ []) :
    String.intercalate ";\n" (ns.map fun n => body (lines n)) = body (linesAll ns) := by
  have hflat : ∀ ns : List Node, ns.flatMap (fun n => (lines n).map Script.Line.text) = (linesAll ns).map Script.Line.text := by
    intro ns
    induction ns with
    | nil => rfl
    | cons n ns ih => rw [flatMap_cons, ih, linesAll, map_append]
  unfold body
  rw [intercalate_flatMap _ (fun n => (lines n).map Script.Line.text) ns (by simpa using h), hflat]

theorem ne_nil_of_plain : ∀ {ns : List Node}, ArePlain ns → WrittenStats Token.Read ns → ∀ n ∈ ns, lines n ≠ []
  | _, .nil, _ => by simp
  | _, .cons hn hns, .cons hn' hns' => forall_mem_cons.mpr ⟨lines_ne_nil hn hn', ne_nil_of_plain hns hns'⟩

mutual

theorem scriptAt_plain : ∀ {n : Node}, IsPlain n → WrittenStat Token.Read n → scriptAt n 0 = body (lines n)
  | _, .define x hvalue, .define hx hvalue' | _, .assign x hvalue, .assign hx hvalue' => by
    obtain ⟨s, rfl, -⟩ := hx.name rfl
    rw [scriptAt, scriptAt_sum hvalue hvalue']
    rfl
  | _, .print hargs, .print hargs' => by
    rw [scriptAt, scriptsAt_sum hargs hargs']
    simp only [lines, body, map_singleton, Script.Line.text, String.intercalate_singleton, map_map]
    rfl
  | _, .block hns, .block hns' => by
    have hindent : (indent 0 ++ ·) = id := funext fun s => String.empty_append
    rw [scriptAt, scriptsAt_plain hns hns', hindent, map_id, body_linesAll (ne_nil_of_plain hns hns')]
    cases hns <;> rfl

theorem scriptsAt_plain : ∀ {ns : List Node}, ArePlain ns → WrittenStats Token.Read ns →
    scriptsAt ns 0 = ns.map fun n => body (lines n)
  | _, .nil, .nil => rfl
  | _, .cons hn hns, .cons hn' hns' => by
    rw [scriptsAt, scriptAt_plain hn hn', scriptsAt_plain hns hns', map_cons]

end

end ScriptM

theorem script_plain {body : List Node} (h : ArePlain body) (hwritten : WrittenStats Token.Read body) :
    (Node.program body).script = .ok (.text (Script.text (linesAll body))) := by
  have hlines := ScriptM.ne_nil_of_plain h hwritten
  have hempty : (linesAll body).isEmpty = body.isEmpty := by
    cases h with
    | nil => rfl
    | cons hn hns => simp [linesAll, hlines]
  have hscript : scriptAt (.program body) 0 = Script.text (linesAll body) := by
    rw [scriptAt, ScriptM.scriptsAt_plain h hwritten, ScriptM.body_linesAll hlines, Script.text, hempty]
    cases body with
    | nil => rfl
    | cons => rfl
  have hwrite := ScriptM.write_program hwritten 0
  rw [hscript] at hwrite
  exact congrArg (·.1) hwrite

/-! ## Values of variables -/

namespace Script

open Reference (Scopes Variables)

/-- Every variable that is visible has the value that the script has under its name. No name is visible in two scopes. -/
structure Shares (scopes : Scopes) (env : Reference.Env) (vars : Env) : Prop where
  apart : scopes.Pairwise fun inner outer => ∀ x ∈ inner, x ∉ outer
  length : env.length = scopes.length
  same : ∀ names ∈ scopes, ∀ x ∈ names, ∃ n : Nat, Reference.lookup x scopes env = some (.number (.int n)) ∧ vars x = some n

theorem lookup_define {x : String} {v : Datum} : ∀ {scopes : Scopes} {env : Reference.Env}, scopes ≠ [] → env.length = scopes.length → ∀ y,
    Reference.lookup y (scopes.declare [x]) (Reference.define x v env) = if y = x then some v else Reference.lookup y scopes env
  | [], _, hopen, _, _ => absurd rfl hopen
  | top :: outer, vars :: env, _, _, y => by
    simp only [Scopes.declare, Reference.define, Reference.lookup, mem_append, mem_singleton, Variables.set]
    by_cases hy : y = x
    · simp [hy]
    · simp [hy]

theorem lookup_assign {x : String} {v : Datum} : ∀ {scopes : Scopes} {env : Reference.Env}, env.length = scopes.length →
    (∃ names ∈ scopes, x ∈ names) → ∃ env', Reference.assign x v scopes env = some env' ∧ env'.length = scopes.length ∧
      ∀ y, Reference.lookup y scopes env' = if y = x then some v else Reference.lookup y scopes env
  | top :: outer, vars :: env, hlength, hx => by
    rw [Reference.assign]
    by_cases htop : x ∈ top
    · refine ⟨_, if_pos htop, hlength, fun y => ?_⟩
      simp only [Reference.lookup, Variables.set]
      by_cases hy : y = x
      · simp [hy, htop]
      · simp [hy]
    · have hx' : ∃ names ∈ outer, x ∈ names := by
        obtain ⟨names, hmem, hx⟩ := hx
        rcases mem_cons.mp hmem with rfl | hmem
        · exact absurd hx htop
        · exact ⟨names, hmem, hx⟩
      obtain ⟨env', hassign, hlength', hlookup⟩ := lookup_assign (v := v) (Nat.succ.inj hlength) hx'
      refine ⟨vars :: env', by rw [if_neg htop, hassign]; rfl, congrArg (· + 1) hlength', fun y => ?_⟩
      simp only [Reference.lookup, hlookup]
      by_cases hy : y = x
      · simp [hy, htop]
      · simp [hy]

namespace Shares

variable {scopes : Scopes} {env : Reference.Env} {vars : Env} {x : String} {n : Nat}

theorem define (h : Shares scopes env vars) (hopen : scopes ≠ []) (hfresh : ∀ names ∈ scopes, x ∉ names) :
    Shares (scopes.declare [x]) (Reference.define x (.number (.int n)) env) (vars.set x n) where
  apart := by
    cases scopes with
    | nil => exact absurd rfl hopen
    | cons top outer =>
      obtain ⟨htop, houter⟩ := pairwise_cons.mp h.apart
      refine pairwise_cons.mpr ⟨fun names hnames y hy => ?_, houter⟩
      rcases mem_append.mp hy with hy | hy
      · exact htop names hnames y hy
      · rw [mem_singleton.mp hy]
        exact hfresh names (mem_cons_of_mem _ hnames)
  length := by
    have hlength := h.length
    cases scopes with
    | nil => exact absurd rfl hopen
    | cons top outer =>
      cases env with
      | nil => cases hlength
      | cons first rest => exact hlength
  same names hnames y hy := by
    rw [lookup_define hopen h.length, Env.set]
    by_cases hyx : y = x
    · exact ⟨n, by simp [hyx], by simp [hyx]⟩
    · rw [if_neg hyx, if_neg hyx]
      cases scopes with
      | nil => exact absurd rfl hopen
      | cons top outer =>
        rcases mem_cons.mp hnames with rfl | hnames
        · rcases mem_append.mp hy with hy | hy
          · exact h.same top (mem_cons_self ..) y hy
          · exact absurd (mem_singleton.mp hy) hyx
        · exact h.same names (mem_cons_of_mem _ hnames) y hy

theorem assign (h : Shares scopes env vars) (hx : ∃ names ∈ scopes, x ∈ names) :
    ∃ env', Reference.assign x (.number (.int n)) scopes env = some env' ∧ Shares scopes env' (vars.set x n) := by
  obtain ⟨env', hassign, hlength, hlookup⟩ := lookup_assign (v := .number (.int n)) h.length hx
  refine ⟨env', hassign, h.apart, hlength, fun names hnames y hy => ?_⟩
  rw [hlookup, Env.set]
  by_cases hyx : y = x
  · exact ⟨n, by simp [hyx], by simp [hyx]⟩
  · rw [if_neg hyx, if_neg hyx]
    exact h.same names hnames y hy

theorem enter (h : Shares scopes env vars) (inside : Variables) : Shares ([] :: scopes) (inside :: env) vars where
  apart := pairwise_cons.mpr ⟨by simp, h.apart⟩
  length := congrArg (· + 1) h.length
  same names hnames y hy := by
    rcases mem_cons.mp hnames with rfl | hnames
    · cases hy
    · exact h.same names hnames y hy

/-- Behind a block its variables are not visible any more, and those that are have kept their values. -/
theorem leave {names : List String} (h : Shares (names :: scopes) env vars) : Shares scopes env.tail vars := by
  obtain ⟨htop, houter⟩ := pairwise_cons.mp h.apart
  have hlength := h.length
  cases env with
  | nil => cases hlength
  | cons inside env =>
    refine ⟨houter, Nat.succ.inj hlength, fun outer houter y hy => ?_⟩
    have hy' : y ∉ names := fun hmem => htop outer houter y hmem hy
    obtain ⟨n, hlookup, hvars⟩ := h.same outer (mem_cons_of_mem _ houter) y hy
    rw [Reference.lookup, if_neg hy'] at hlookup
    exact ⟨n, hlookup, hvars⟩

end Shares

end Script

/-! ## Printing the same -/

namespace Reference

/-- Prints values as the items of a line, up to one that is too long to be written. -/
def showItems : List Nat → Eval Unit
  | [] => return
  | n :: ns => do
    let s ← ofFault (Datum.intText n)
    emit (s ++ " ")
    showItems ns

def showLines : List (List Nat) → Eval Unit
  | [] => return
  | ns :: more => do
    showItems ns
    emit "\n"
    showLines more

theorem showLines_append (printed more : List (List Nat)) :
    showLines (printed ++ more) = showLines printed >>= fun _ => showLines more := by
  induction printed with
  | nil => simp [showLines]
  | cons ns printed ih => simp [showLines, ih]

end Reference

/-- What is visible at some place is what is declared so far, and no function is known. -/
structure Context.Fits (c : Context) (scopes : Scopes) : Prop where
  scopes : c.scopes = scopes.map (·.map Datum.text) ++ [[]]
  known : c.known = []

namespace Context.Fits

variable {c : Context} {scopes : Scopes}

theorem sees_iff (h : c.Fits scopes) (x : String) : c.sees (.text x) = true ↔ ∃ names ∈ scopes, x ∈ names := by
  unfold Context.sees
  rw [h.scopes, any_append, any_map]
  simp [Datum.text_eq_iff]

theorem knows (h : c.Fits scopes) (x : Datum) : c.knows x = false := by
  unfold Context.knows
  rw [h.known]
  rfl

theorem inBlock (h : c.Fits scopes) : c.inBlock.Fits ([] :: scopes) := ⟨congrArg ([] :: ·) h.scopes, h.known⟩

theorem after (h : c.Fits scopes) (hopen : scopes ≠ []) {n : Node} {names : List String} (hdeclares : declares n = names.map Datum.text)
    (hfunctions : functions n = []) : (c.after n).Fits (scopes.declare names) := by
  refine ⟨?_, ?_⟩
  · cases scopes with
    | nil => exact absurd rfl hopen
    | cons top outer => simp [Context.after, Context.declare, Context.know, h.scopes, hdeclares, Scopes.declare]
  · simp [Context.after, Context.declare, Context.know, h.known, hfunctions]

end Context.Fits

namespace Reference

theorem declare_nil (scopes : Scopes) : scopes.declare [] = scopes := by
  cases scopes with
  | nil => rfl
  | cons top outer => rw [Scopes.declare, append_nil]

theorem declare_declare (scopes : Scopes) (names more : List String) :
    (scopes.declare names).declare more = scopes.declare (names ++ more) := by
  cases scopes with
  | nil => rfl
  | cons top outer => rw [Scopes.declare, Scopes.declare, Scopes.declare, append_assoc]

end Reference

theorem Node.IsSum.ne_function {e : Node} (h : IsSum e) : ∀ params body, e ≠ .function params body := by
  cases h <;> simp

mutual

theorem Node.functions_plain : ∀ {n : Node}, IsPlain n → functions n = []
  | _, .define x hvalue => functions_variable hvalue.ne_function
  | _, .assign .. | _, .print _ => by simp [functions]
  | _, .block hbody => by rw [functions, functionsAll_plain hbody]

theorem Node.functionsAll_plain : ∀ {ns : List Node}, ArePlain ns → functionsAll ns = []
  | _, .nil => by rw [functionsAll]
  | _, .cons hn hns => by rw [functionsAll, functions_plain hn, functionsAll_plain hns, nil_append]

end

section

variable {c : Context} {scopes : Reference.Scopes} {env : Reference.Env} {vars : Script.Env}

theorem Script.Shares.eval (h : Script.Shares scopes env vars) (hc : c.Fits scopes) (rules : Reference.Rules) {e : Node}
    (he : IsSum e) (hlexed : ∀ t ∈ leaves e, t.Lexed) (hfine : ∀ m ∈ mentions c e, m.wrong [] = false) :
    ∃ n : Nat, (term e).value vars = some n ∧ Reference.eval rules scopes env e = pure (.number (.int n)) := by
  induction he with
  | number n => exact ⟨n, rfl, rfl⟩
  | name x =>
    obtain ⟨s, rfl⟩ := (hlexed ⟨"id", x⟩ (by simp [leaves])).name rfl
    have hread := hfine ⟨c, .read (.text s)⟩ (by simp [mentions])
    have hsees : c.sees (.text s) = true := by simpa [Mention.wrong, hc.knows, provided] using hread
    obtain ⟨names, hnames, hs⟩ := (hc.sees_iff s).mp hsees
    obtain ⟨n, hlookup, hvars⟩ := h.same names hnames s hs
    exact ⟨n, hvars, by rw [Reference.eval, Reference.name, hlookup]⟩
  | sum _ _ ihl ihr =>
    rw [leaves, forall_mem_append] at hlexed
    rw [mentions, show CompileM.swappedOf? (.text "+") = none from rfl, forall_mem_append] at hfine
    obtain ⟨a, ha, hleft⟩ := ihl hlexed.1 hfine.1
    obtain ⟨b, hb, hright⟩ := ihr hlexed.2 hfine.2
    refine ⟨a + b, by simp [term, Script.Term.value, ha, hb], ?_⟩
    rw [Reference.eval, hleft, hright]
    · rfl
    all_goals decide
  | product _ _ ihl ihr =>
    rw [leaves, forall_mem_append] at hlexed
    rw [mentions, show CompileM.swappedOf? (.text "*") = none from rfl, forall_mem_append] at hfine
    obtain ⟨a, ha, hleft⟩ := ihl hlexed.1 hfine.1
    obtain ⟨b, hb, hright⟩ := ihr hlexed.2 hfine.2
    refine ⟨a * b, by simp [term, Script.Term.value, ha, hb], ?_⟩
    rw [Reference.eval, hleft, hright]
    · rfl
    all_goals decide

theorem Script.Shares.print (h : Script.Shares scopes env vars) (hc : c.Fits scopes) (rules : Reference.Rules) :
    ∀ {es : List Node}, (∀ e ∈ es, IsSum e) → (∀ t ∈ leavesAll es, t.Lexed) → (∀ m ∈ mentionsEach c es, m.wrong [] = false) →
    ∃ ns : List Nat, Script.values vars (es.map term) = some ns ∧ Reference.print rules scopes env es = Reference.showItems ns
  | [], _, _, _ => ⟨[], rfl, rfl⟩
  | e :: es, hsum, hlexed, hfine => by
    obtain ⟨he, hes⟩ := forall_mem_cons.mp hsum
    rw [leavesAll, forall_mem_append] at hlexed
    rw [mentionsEach, forall_mem_append] at hfine
    obtain ⟨n, hn, heval⟩ := h.eval hc rules he hlexed.1 hfine.1
    obtain ⟨ns, hns, hprint⟩ := h.print hc rules hes hlexed.2 hfine.2
    refine ⟨n :: ns, by simp [Script.values, hn, hns], ?_⟩
    have hshown : ((Datum.number (.int n)).payload >>= Datum.display) = Datum.intText n := by
      rw [show (Datum.number (.int n)).payload = .ok (.int n) from rfl]
      simp only [bind, Except.bind, Datum.display, Datum.literal]
    rw [Reference.print, heval, hprint, Reference.showItems, pure_bind, hshown]

/-- A definition of a name that is visible already. -/
def Mention.shadows (m : Mention) : Bool :=
  match m.use with
  | .define x => m.context.sees x
  | _ => false

/-- Definitions are of names that are not visible yet. -/
def Unshadowed (ms : List Mention) : Prop := ∀ m ∈ ms, m.shadows = false

mutual

/-- A statement prints what its lines print, and leaves the same values. -/
theorem Script.Shares.exec (rules : Rules) : ∀ {n : Node}, IsPlain n → ∀ {c : Context} {scopes : Scopes}
    {env : Reference.Env} {vars : Script.Env}, Script.Shares scopes env vars → c.Fits scopes → scopes ≠ [] →
    (∀ t ∈ leaves n, t.Lexed) → (∀ m ∈ mentions c n, m.wrong [] = false) → Unshadowed (mentions c n) →
    ∃ vars' env' printed, Script.exec vars (lines n) = some (vars', printed) ∧
      Reference.exec rules scopes env n = (do Reference.showLines printed; return .on env') ∧
      Script.Shares (scopes.declare (Reference.declared n)) env' vars' ∧ (c.after n).Fits (scopes.declare (Reference.declared n))
  | _, @IsPlain.define x value hvalue, c, scopes, env, vars, h, hc, hopen, hlexed, hfine, hnew => by
    have hne := hvalue.ne_function
    rw [leaves, forall_mem_cons] at hlexed
    obtain ⟨s, rfl⟩ := hlexed.1.name rfl
    rw [mentions_variable hne] at hfine hnew
    obtain ⟨n, hn, heval⟩ := h.eval hc rules hvalue hlexed.2 fun m hm => hfine m (mem_append_left _ hm)
    have hfresh : c.sees (.text s) = false :=
      hnew ⟨c, .define (.text s)⟩ (mem_append_right _ (mem_singleton_self _))
    rw [Bool.eq_false_iff, ne_eq, hc.sees_iff] at hfresh
    refine ⟨vars.set s n, Reference.define s (.number (.int n)) env, [], ?_, ?_, h.define hopen ?_, hc.after hopen ?_ ?_⟩
    · simp [lines, Script.exec, hn]
    · rw [Reference.exec_variable hne, heval]
      simp [Reference.showLines]
    · exact fun names hnames hs => hfresh ⟨names, hnames, hs⟩
    · rfl
    · rw [functions_variable hne]
  | _, @IsPlain.assign x value hvalue, c, scopes, env, vars, h, hc, hopen, hlexed, hfine, hnew => by
    rw [leaves, forall_mem_cons] at hlexed
    obtain ⟨s, rfl⟩ := hlexed.1.name rfl
    rw [mentions] at hfine
    obtain ⟨n, hn, heval⟩ := h.eval hc rules hvalue hlexed.2 fun m hm => hfine m (mem_append_left _ hm)
    have hassign := hfine ⟨c, .assign (.text s)⟩ (mem_append_right _ (mem_singleton_self _))
    have hsees : c.sees (.text s) = true := by simpa [Mention.wrong, provided] using hassign
    obtain ⟨env', henv', hshares⟩ := h.assign (n := n) ((hc.sees_iff s).mp hsees)
    have hnone : declared (.assign (.text s) value) = [] := rfl
    refine ⟨vars.set s n, env', [], ?_, ?_, ?_, hc.after hopen rfl rfl⟩
    · simp [lines, Script.exec, hn]
    · rw [Reference.exec, heval]
      simp [showLines, henv']
    · rw [hnone, declare_nil]
      exact hshares
  | _, @IsPlain.print args hargs, c, scopes, env, vars, h, hc, hopen, hlexed, hfine, hnew => by
    rw [leaves] at hlexed
    rw [mentions] at hfine
    obtain ⟨ns, hns, hprint⟩ := h.print hc rules hargs hlexed hfine
    have hnone : Reference.declared (.print args) = [] := rfl
    refine ⟨vars, env, [ns], ?_, ?_, ?_, hc.after hopen rfl rfl⟩
    · simp [lines, Script.exec, hns]
    · rw [Reference.exec, hprint]
      simp [showLines]
    · rw [hnone, declare_nil]
      exact h
  | _, @IsPlain.block body hbody, c, scopes, env, vars, h, hc, hopen, hlexed, hfine, hnew => by
    rw [leaves] at hlexed
    rw [mentions] at hfine hnew
    obtain ⟨vars', env', printed, hlines, hexec, hshares⟩ :=
      Script.Shares.execAll rules hbody (h.enter fun _ => .nothing) hc.inBlock (by simp) hlexed hfine hnew
    have hnone : declared (.block body) = [] := rfl
    refine ⟨vars', env'.tail, printed, ?_, ?_, ?_, hc.after hopen rfl (functions_plain (.block hbody))⟩
    · rw [lines]
      split
      · rename_i hempty
        rw [isEmpty_iff.mp hempty] at hlines
        exact hlines
      · exact hlines
    · rw [Reference.exec, hexec]
      simp
    · rw [hnone, declare_nil]
      exact hshares.leave

theorem Script.Shares.execAll (rules : Rules) : ∀ {ns : List Node}, ArePlain ns → ∀ {c : Context} {scopes : Scopes}
    {env : Reference.Env} {vars : Script.Env}, Script.Shares scopes env vars → c.Fits scopes → scopes ≠ [] →
    (∀ t ∈ leavesAll ns, t.Lexed) → (∀ m ∈ mentionsAll c ns, m.wrong [] = false) → Unshadowed (mentionsAll c ns) →
    ∃ vars' env' printed, Script.exec vars (linesAll ns) = some (vars', printed) ∧
      Reference.execAll rules scopes env ns = (do Reference.showLines printed; return .on env') ∧
      Script.Shares (scopes.declare (Reference.declaredAll ns)) env' vars'
  | _, .nil, c, scopes, env, vars, h, hc, hopen, hlexed, hfine, hnew => by
    refine ⟨vars, env, [], rfl, ?_, ?_⟩
    · rw [Reference.execAll]
      simp [showLines]
    · rw [show declaredAll [] = [] from rfl, declare_nil]
      exact h
  | _, @ArePlain.cons n ns hn hns, c, scopes, env, vars, h, hc, hopen, hlexed, hfine, hnew => by
    rw [leavesAll, forall_mem_append] at hlexed
    rw [mentionsAll, forall_mem_append] at hfine
    obtain ⟨vars₁, env₁, printed₁, hlines₁, hexec₁, hshares₁, hc₁⟩ := Script.Shares.exec rules hn h hc hopen hlexed.1 hfine.1
      fun m hm => hnew m (by rw [mentionsAll]; exact mem_append_left _ hm)
    have hopen₁ : scopes.declare (declared n) ≠ [] := by
      cases scopes with
      | nil => exact absurd rfl hopen
      | cons top outer => exact cons_ne_nil _ _
    obtain ⟨vars₂, env₂, printed₂, hlines₂, hexec₂, hshares₂⟩ := Script.Shares.execAll rules hns hshares₁ hc₁ hopen₁ hlexed.2 hfine.2
      fun m hm => hnew m (by rw [mentionsAll]; exact mem_append_right _ hm)
    refine ⟨vars₂, env₂, printed₁ ++ printed₂, ?_, ?_, ?_⟩
    · rw [linesAll, Script.exec_append hlines₁, hlines₂]
      rfl
    · rw [Reference.execAll, hexec₁, Reference.showLines_append]
      simp [hexec₂]
    · rw [show declaredAll (n :: ns) = declared n ++ declaredAll ns from flatMap_cons,
        ← declare_declare]
      exact hshares₂

end

end

/-! ## Texts -/

namespace Node

theorem IsSum.parts {e : Node} (h : IsSum e) : ∀ n ∈ Node.parts e, IsSum n := by
  induction h with
  | number n =>
    rw [Node.parts]
    · exact fun _ hn => mem_singleton.mp hn ▸ .number n
    all_goals simp
  | name x =>
    rw [Node.parts]
    · exact fun _ hn => mem_singleton.mp hn ▸ .name x
    all_goals simp
  | sum hl hr ihl ihr =>
    rw [Node.parts]
    exact forall_mem_cons.mpr ⟨.sum hl hr, forall_mem_append.mpr ⟨ihl, ihr⟩⟩
  | product hl hr ihl ihr =>
    rw [Node.parts]
    exact forall_mem_cons.mpr ⟨.product hl hr, forall_mem_append.mpr ⟨ihl, ihr⟩⟩

theorem IsSum.partsAll : ∀ {es : List Node}, (∀ e ∈ es, IsSum e) → ∀ n ∈ Node.partsAll es, IsSum n
  | [], _ => by simp [Node.partsAll]
  | e :: es, h => by
    obtain ⟨he, hes⟩ := forall_mem_cons.mp h
    rw [Node.partsAll]
    exact forall_mem_append.mpr ⟨he.parts, partsAll hes⟩

mutual

theorem IsPlain.parts : ∀ {n : Node}, IsPlain n → ∀ m ∈ Node.parts n, IsPlain m ∨ IsSum m
  | _, .define x hvalue => by
    rw [Node.parts]
    exact forall_mem_cons.mpr ⟨Or.inl (.define x hvalue), fun m hm => Or.inr (hvalue.parts m hm)⟩
  | _, .assign x hvalue => by
    rw [Node.parts]
    exact forall_mem_cons.mpr ⟨Or.inl (.assign x hvalue), fun m hm => Or.inr (hvalue.parts m hm)⟩
  | _, .print hargs => by
    rw [Node.parts]
    exact forall_mem_cons.mpr ⟨Or.inl (.print hargs), fun m hm => Or.inr (IsSum.partsAll hargs m hm)⟩
  | _, .block hbody => by
    rw [Node.parts]
    exact forall_mem_cons.mpr ⟨Or.inl (.block hbody), ArePlain.parts hbody⟩

theorem ArePlain.parts : ∀ {ns : List Node}, ArePlain ns → ∀ m ∈ partsAll ns, IsPlain m ∨ IsSum m
  | _, .nil => by simp [partsAll]
  | _, .cons hn hns => by
    rw [partsAll]
    exact forall_mem_append.mpr ⟨IsPlain.parts hn, ArePlain.parts hns⟩

end

theorem IsSum.leaves {e : Node} (h : IsSum e) : ∀ t ∈ Node.leaves e, ∀ x : Float, t ≠ ⟨"num", .float x⟩ := by
  induction h with
  | number n => simp [Node.leaves]
  | name x => simp [Node.leaves]
  | sum hl hr ihl ihr | product hl hr ihl ihr =>
    rw [Node.leaves]
    exact forall_mem_append.mpr ⟨ihl, ihr⟩

theorem IsSum.leavesAll : ∀ {es : List Node}, (∀ e ∈ es, IsSum e) → ∀ t ∈ Node.leavesAll es, ∀ x : Float, t ≠ ⟨"num", .float x⟩
  | [], _ => by simp [Node.leavesAll]
  | e :: es, h => by
    obtain ⟨he, hes⟩ := forall_mem_cons.mp h
    rw [Node.leavesAll]
    exact forall_mem_append.mpr ⟨he.leaves, leavesAll hes⟩

mutual

theorem IsPlain.leaves : ∀ {n : Node}, IsPlain n → ∀ t ∈ Node.leaves n, ∀ x : Float, t ≠ ⟨"num", .float x⟩
  | _, .define x hvalue | _, .assign x hvalue => by
    rw [Node.leaves]
    exact forall_mem_cons.mpr ⟨by simp, hvalue.leaves⟩
  | _, .print hargs => by
    rw [Node.leaves]
    exact IsSum.leavesAll hargs
  | _, .block hbody => by
    rw [Node.leaves]
    exact ArePlain.leaves hbody

theorem ArePlain.leaves : ∀ {ns : List Node}, ArePlain ns → ∀ t ∈ leavesAll ns, ∀ x : Float, t ≠ ⟨"num", .float x⟩
  | _, .nil => by simp [leavesAll]
  | _, .cons hn hns => by
    rw [leavesAll]
    exact forall_mem_append.mpr ⟨IsPlain.leaves hn, ArePlain.leaves hns⟩

end

end Node

/-- A program of blocks is compiled to code that does what it means. -/
theorem Straight.of_plain {text : String} {body : List Node} {p : Program} (hread : Node.ofText text = .ok (.program body))
    (hplain : ArePlain body) (hp : Program.ofNode [] (.program body) = .ok p) : Straight body p := by
  obtain ⟨_, hbody, hstats⟩ := areStats_of_text hread
  cases hbody
  have hparts := hplain.parts
  have hfunctions := functionsAll_plain hplain
  refine ⟨hstats, Program.laidOut hstats hp, leaves_of_text hread, ⟨fun h => ?_, fun h => ?_⟩, ?_, ?_, fun x hx => ?_⟩
  · rcases hparts _ h with h | h <;> cases h
  · rcases hparts _ h with h | h <;> cases h
  · intro f hf
    rw [hfunctions] at hf
    cases hf
  · rw [hfunctions]
    exact nodup_nil
  · exact absurd rfl (hplain.leaves _ hx x)

/-! ## Output -/

namespace Script

/-- Values as the items of a line. -/
def items (ns : List Nat) : String := String.join (ns.map fun n => Decimal.numeral n ++ " ")

/-- Whole lines. -/
def logged (printed : List (List Nat)) : String := String.join (printed.map fun ns => items ns ++ "\n")

end Script

namespace Reference

open Script (Short items logged)

theorem showItems_append (ns more : List Nat) : showItems (ns ++ more) = showItems ns >>= fun _ => showItems more := by
  induction ns with
  | nil => simp [showItems]
  | cons n ns ih => simp [showItems, ih]

theorem outcome_showItems : ∀ {ns : List Nat}, (∀ n ∈ ns, Short n) → ∀ out : String,
    outcome (showItems ns) out = (.ok (), out ++ items ns)
  | [], _, out => by simp [showItems, items]
  | n :: ns, h, out => by
    obtain ⟨hn, hns⟩ := forall_mem_cons.mp h
    have hitem : outcome (ofFault (Datum.intText n)) out = (.ok (Decimal.numeral n), out) := by
      rw [Datum.intText_of_short hn]
      rfl
    have hemit : outcome (emit (Decimal.numeral n ++ " ")) out = (.ok (), out ++ (Decimal.numeral n ++ " ")) := rfl
    rw [showItems, bind_ok hitem, bind_ok hemit, outcome_showItems hns]
    simp [items, String.append_assoc]

theorem outcome_showItems_long {ns rest : List Nat} {n : Nat} (h : ∀ k ∈ ns, Short k) (hn : ¬ Short n) (out : String) :
    outcome (showItems (ns ++ n :: rest)) out = (.error (.fault (.digitLimit none)), out ++ items ns) := by
  have hitem : outcome (ofFault (Datum.intText n)) (out ++ items ns) = (.error (.fault (.digitLimit none)), out ++ items ns) := by
    rw [Datum.intText_of_long hn]
    rfl
  rw [showItems_append, bind_ok (outcome_showItems h out), showItems, bind_error hitem]

theorem outcome_showLines : ∀ {printed : List (List Nat)}, (∀ ns ∈ printed, ∀ n ∈ ns, Short n) → ∀ out : String,
    outcome (showLines printed) out = (.ok (), out ++ logged printed)
  | [], _, out => by simp [showLines, logged]
  | ns :: more, h, out => by
    obtain ⟨hns, hmore⟩ := forall_mem_cons.mp h
    have hemit : outcome (emit "\n") (out ++ items ns) = (.ok (), out ++ items ns ++ "\n") := rfl
    rw [showLines, bind_ok (outcome_showItems hns out), bind_ok hemit, outcome_showLines hmore]
    simp [logged, String.append_assoc]

theorem outcome_showLines_long {done more : List (List Nat)} {ns rest : List Nat} {n : Nat} (hdone : ∀ ks ∈ done, ∀ k ∈ ks, Short k)
    (hns : ∀ k ∈ ns, Short k) (hn : ¬ Short n) (out : String) :
    outcome (showLines (done ++ (ns ++ n :: rest) :: more)) out
      = (.error (.fault (.digitLimit none)), out ++ logged done ++ items ns) := by
  rw [showLines_append, bind_ok (outcome_showLines hdone out), showLines, bind_error (outcome_showItems_long hns hn _)]

end Reference

/-! ## The same output -/

/-- What a program of blocks comes to is what its script prints. -/
theorem Reference.interpret_plain {text : String} {body : List Node} {p : Program} (hread : Node.ofText text = .ok (.program body))
    (hplain : ArePlain body) (hp : Program.ofNode [] (.program body) = .ok p) (hunshadowed : Unshadowed (programMentions body))
    (fuel : Nat) : ∃ printed, Script.run (linesAll body) = some printed ∧
      interpret p.routines body fuel = outcome (showLines printed) "" := by
  obtain ⟨ts, _, -, hparse, hbody⟩ := lex_of_text hread
  cases hbody
  have hstats := (areStats_of_parse hparse).1
  have hupfront : upfrontAll body = [] := by
    have hsub := Layout.registeredAll_sublist hstats
    rw [functionsAll_plain hplain] at hsub
    rw [upfrontAll_eq hstats, sublist_nil.mp hsub]
  have hfits : (outset body).inBlock.Fits [[]] := ⟨rfl, hupfront⟩
  have hshares : Script.Shares [[]] [fun _ => .nothing] (fun _ => none) := ⟨pairwise_singleton _ _, rfl, by simp⟩
  have hfine := Program.wrong_eq_false hparse hp
  rw [programMentions, mentions] at hfine hunshadowed
  let index := fun x : String => p.routines.findIdx? fun r => r.name.eq (.text x)
  obtain ⟨vars, env, printed, hlines, hexec, -⟩ := Script.Shares.execAll (rules (functionsAll body) index fuel) hplain
    hshares hfits (by simp) (leaves_of_text hread) hfine hunshadowed
  refine ⟨printed, by rw [Script.run, hlines]; rfl, ?_⟩
  have hblock : exec (rules (functionsAll body) index fuel) [] [] (.block body)
      = (do showLines printed; return .on env.tail) := by
    rw [exec, hexec]
    simp
  show outcome (discard (exec (rules (functionsAll body) index fuel) [] [] (.block body))) "" = _
  rw [hblock, outcome_discard, outcome_bind]
  cases outcome (showLines printed) "" with
  | mk r text => cases r <;> rfl

/-- **Scripts print what programs print.** Take a text of definitions, assignments, `print` and blocks, over sums and products of whole
numbers and names, that compiles without primitives, and in which no definition is of a name that is visible there already. Its script is
written, and prints values. If all of them can be written, the machine ends and has printed the same values, with the statistics of its stack
behind them. Otherwise it has printed those in front of the first one that is too long, and fails with the limit on digits. -/
theorem Script.prints_as_compiled {text : String} {body : List Node} {p : Program} (hread : Node.ofText text = .ok (.program body))
    (hplain : ArePlain body) (hp : Program.ofNode [] (.program body) = .ok p) (hunshadowed : Unshadowed (programMentions body))
    (signals : List Signal) :
    ∃ printed : List (List Nat), (Node.program body).script = .ok (.text (Script.text (linesAll body))) ∧
      Script.run (linesAll body) = some printed ∧
      ((∀ ns ∈ printed, ∀ n ∈ ns, Short n) → ∃ last, (Machine.start p signals).Comes (.ok ()) last ∧
        last.printed = logged printed ++ last.stack.summary) ∧
      ∀ done ns n rest more, printed = done ++ (ns ++ n :: rest) :: more → (∀ ks ∈ done, ∀ k ∈ ks, Short k) → (∀ k ∈ ns, Short k) →
        ¬ Short n → ∃ last, (Machine.start p signals).Comes (.error (.fault (.digitLimit none))) last ∧
          last.printed = logged done ++ items ns := by
  obtain ⟨printed, hrun, hinterpret⟩ := interpret_plain hread hplain hp hunshadowed 0
  have hrenders := (Straight.of_plain hread hplain hp).renders signals 0
  rw [hinterpret] at hrenders
  refine ⟨printed, script_plain hplain (written_of_text hread), hrun, fun hshort => ?_, fun done ns n rest more heq hdone hns hn => ?_⟩
  · rw [outcome_showLines hshort] at hrenders
    exact hrenders
  · rw [heq, outcome_showLines_long hdone hns hn] at hrenders
    exact hrenders

set_option maxRecDepth 8000 in
/-- Blocks that assign a variable around them, and that define a name again where it is not visible. -/
theorem Script.prints_nested_blocks : ∃ (body : List Node) (p : Program) (last : Machine),
    Node.ofText ("var x = 1; \x7b var y = x + 2; x = y * 3; \x7b var z = x; print(z, y); \x7d \x7d " ++
      "var y = 5; \x7b var z = y; print(z + x); \x7d") = .ok (.program body) ∧ Program.ofNode [] (.program body) = .ok p ∧
    (Node.program body).script = .ok (.text ("var x = 1;\nvar y = (x + 2);\nx = (y * 3);\nvar z = x;\nconsole.log(z, y);\n" ++
      "var y = 5;\nvar z = y;\nconsole.log((z + x));")) ∧
    Script.run (linesAll body) = some [[9, 3], [14]] ∧ (Machine.start p []).Comes (.ok ()) last ∧
    last.printed = "9 3 \n14 \n" ++ last.stack.summary := by
  let body : List Node :=
    [.define (.text "x") (.literal .num [.int 1]),
      .block [.define (.text "y") (.binary (.text "+") (.name (.text "x")) (.literal .num [.int 2])),
        .assign (.text "x") (.binary (.text "*") (.name (.text "y")) (.literal .num [.int 3])),
        .block [.define (.text "z") (.name (.text "x")), .print [.name (.text "z"), .name (.text "y")]]],
      .define (.text "y") (.literal .num [.int 5]),
      .block [.define (.text "z") (.name (.text "y")), .print [.binary (.text "+") (.name (.text "z")) (.name (.text "x"))]]]
  let p : Program :=
    { code := #[13, 2, 1, 0, 6, 0, 0, 13, 1, 5, 1, 0, 1, 1, 111, 6, 0, 0, 5, 0, 0, 1, 2, 113, 6, 1, 0, 13, 1, 5, 2, 0, 6, 0, 0, 5, 0,
        0, 7, 5, 1, 0, 7, 8, 14, 14, 1, 3, 6, 0, 1, 13, 1, 5, 1, 1, 6, 0, 0, 5, 0, 0, 5, 1, 0, 111, 7, 8, 14, 14]
      consts := #[.number (.int 1), .number (.int 2), .number (.int 3), .number (.int 5)]
      scopes := #[#[], #[.text "x", .text "y"], #[.text "y"], #[.text "z"], #[.text "z"]]
      routines := #[] }
  have hread : Node.ofText ("var x = 1; \x7b var y = x + 2; x = y * 3; \x7b var z = x; print(z, y); \x7d \x7d " ++
      "var y = 5; \x7b var z = y; print(z + x); \x7d") = .ok (.program body) := by cbv
  have hp : Program.ofNode [] (.program body) = .ok p := by cbv
  have hplain : ArePlain body := by
    refine .cons (.define _ (.number 1)) (.cons (.block ?_) (.cons (.define _ (.number 5)) (.cons (.block ?_) .nil)))
    · refine .cons (.define _ (.sum (.name _) (.number 2))) (.cons (.assign _ (.product (.name _) (.number 3))) (.cons (.block ?_) .nil))
      exact .cons (.define _ (.name _)) (.cons (.print (by simp [IsSum.name])) .nil)
    · exact .cons (.define _ (.name _)) (.cons (.print (by simp [IsSum.name, IsSum.sum])) .nil)
  have hunshadowed : Unshadowed (programMentions body) := by
    unfold Unshadowed body
    decide +kernel
  have hwritten : Script.text (linesAll body) = "var x = 1;\nvar y = (x + 2);\nx = (y * 3);\nvar z = x;\nconsole.log(z, y);\n" ++
      "var y = 5;\nvar z = y;\nconsole.log((z + x));" := by
    unfold body
    decide +kernel
  have hrun : Script.run (linesAll body) = some [[9, 3], [14]] := by rfl
  have hshort : ∀ n < 10 ^ 2, Short n := fun n hn => hn.trans_le (by rw [Nat.pow_le_pow_iff_right (by decide)]; decide)
  obtain ⟨printed, hscript, hprinted, hends, -⟩ := Script.prints_as_compiled hread hplain hp hunshadowed []
  cases hrun.symm.trans hprinted
  obtain ⟨last, hcomes, hlast⟩ := hends (by simp [hshort])
  exact ⟨body, p, last, hread, hp, hwritten ▸ hscript, hrun, hcomes, hlast⟩

end Cilly
