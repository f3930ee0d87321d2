import Cilly.Failure
import Cilly.Proofs.Parsing.Sound

/-!
# Trees as they are written

The trees that tokens are read to keep statements and expressions apart, and give every function a block for its
body: `IsExpr` and `IsStat` say so, and `areStats_of_parse` that it holds whatever the tokens are. Names, parameters
and literals are taken from tokens (`leaves`), and no tree takes fewer tokens than it has parts (`bulk`). Operators are
those of the grammar, and what holds of the tokens holds of all that is taken from them (`WrittenExpr`, `WrittenStat`).
Tokens of a text have values of the right kind (`Token.Lexed`), and so have the leaves of its tree.
-/

namespace Cilly

open List

variable {P : Token → Prop} {body : List Node} {c : Char} {n : Node} {src tag : String} {t : Token} {ts : List Token}
  {xs : List Datum}

/-- The values that literals of a kind are written with. -/
def LiteralKind.Admits : LiteralKind → Datum → Prop
  | .num, d => (∃ i, d = .int i) ∨ ∃ x, d = .float x
  | .str, d => ∃ s, d = .text s
  | _, _ => True

/-- The values that literals of a kind have in a text, where no number has a sign. -/
def LiteralKind.Reads : LiteralKind → Datum → Prop
  | .num, d => (∃ n : Nat, d = .int n) ∨ ∃ num den, d = .float (Binary.nearest Bool.false num den)
  | .str, d => ∃ s, d = .text s
  | _, _ => True

/-! ## Tokens of a text -/

namespace Token

/-- A token has a value that fits its tag, and marks no end. -/
structure Lexed (t : Token) : Prop where
  name : t.tag = "id" → ∃ x, t.value = .text x
  literal : ∀ kind : LiteralKind, t.tag = kind.tag → kind.Admits t.value
  proper : t.tag ≠ "eof"

/-- A whole number of a text has no more digits than can be written. -/
def Brief (t : Token) : Prop := ∀ i : Int, t.value = .int i → i.natAbs < 10 ^ Datum.digitBound

/-- Letters, digits and underscores, and at least one of them. -/
def IsWord (s : String) : Prop := s.toList ≠ [] ∧ ∀ c ∈ s.toList, isNamePart c = true

/-- A token has one of the values that tokens of a text have. -/
structure Read (t : Token) : Prop where
  name : t.tag = "id" → ∃ x, t.value = .text x ∧ IsWord x
  literal : ∀ kind : LiteralKind, t.tag = kind.tag → kind.Reads t.value
  brief : Brief t
  proper : t.tag ≠ "eof"

theorem Read.lexed (h : Read t) : Lexed t where
  name htag := by
    obtain ⟨x, hx, -⟩ := h.name htag
    exact ⟨x, hx⟩
  literal kind htag := by
    have hreads := h.literal kind htag
    cases kind with
    | num =>
      rcases hreads with ⟨n, hn⟩ | ⟨_, _, hx⟩
      · exact .inl ⟨n, hn⟩
      · exact .inr ⟨_, hx⟩
    | str | true | false | null => exact hreads
  proper := h.proper

theorem read_num {d : Datum} (h : LiteralKind.num.Reads d) (hbrief : Brief ⟨"num", d⟩) : Read ⟨"num", d⟩ where
  name := by simp
  literal kind htag := by cases kind <;> first | exact h | simp [LiteralKind.tag] at htag
  brief := hbrief
  proper := by simp

theorem read_str (s : String) : Read ⟨"str", .text s⟩ where
  name := by simp
  literal kind htag := by
    cases kind <;> first | exact ⟨s, rfl⟩ | simp [LiteralKind.tag] at htag
  brief _ h := by cases h
  proper := by simp

theorem read_id {s : String} (h : IsWord s) : Read ⟨"id", .text s⟩ where
  name _ := ⟨s, rfl, h⟩
  literal kind htag := by cases kind <;> simp [LiteralKind.tag] at htag
  brief _ h := by cases h
  proper := by simp

/-- The tags that need a value, and the end mark. -/
def demanding : List String := ["id", "num", "str", "eof"]

theorem read_bare (h : tag ∉ demanding) : Read ⟨tag, .null⟩ := by
  have hne : ∀ {other : String}, other ∈ demanding → tag ≠ other := by
    rintro _ hmem rfl
    exact h hmem
  refine ⟨fun htag => absurd htag (hne (by decide)), ?_, (fun _ h => by cases h), hne (by decide)⟩
  intro kind htag
  cases kind with
  | num | str => exact absurd htag (hne (by decide))
  | true | false | null => trivial

theorem keyword_not_demanding {s : String} (h : s ∈ keywords) : s ∉ demanding := by
  simp only [keywords, mem_cons, not_mem_nil, or_false] at h
  rcases h with rfl | rfl | rfl | rfl | rfl | rfl | rfl | rfl | rfl | rfl | rfl | rfl | rfl <;> decide

theorem read_word {letters : List Char} (hne : letters ≠ []) (h : ∀ c ∈ letters, isNamePart c = true) : Read (word letters) := by
  unfold word
  dsimp only
  split
  · rename_i hkey
    exact read_bare (keyword_not_demanding hkey)
  · exact read_id (by simpa [IsWord] using ⟨hne, h⟩)

theorem read_single (h : c ∈ singles) : Read ⟨c.toString, .null⟩ := by
  refine read_bare ?_
  simp only [singles, mem_cons, not_mem_nil, or_false] at h
  rcases h with rfl | rfl | rfl | rfl | rfl | rfl | rfl | rfl | rfl | rfl | rfl <;> decide

theorem read_second {d : Char} (h : second? c = some d) :
    Read ⟨String.ofList [c, d], .null⟩ ∧ Read ⟨c.toString, .null⟩ := by
  unfold second? at h
  split at h <;> simp only [Option.some.injEq, reduceCtorEq] at h <;> subst h <;>
    exact ⟨read_bare (by decide), read_bare (by decide)⟩

theorem brief_digits : ∀ (digits : List Char) {n k : Nat}, (∀ d ∈ digits, isDigit d = true) → n < 10 ^ k →
    digits.foldl (fun n d => 10 * n + (d.toNat - '0'.toNat)) n < 10 ^ (k + digits.length)
  | [], n, k, _, hn => hn
  | d :: digits, n, k, hdigits, hn => by
    obtain ⟨hd, hrest⟩ := forall_mem_cons.mp hdigits
    have hle : d.toNat ≤ '9'.toNat := by
      simp only [isDigit, Bool.and_eq_true, decide_eq_true_eq] at hd
      exact hd.2
    rw [show '9'.toNat = '0'.toNat + 9 from rfl] at hle
    rw [foldl_cons, length_cons, show k + (digits.length + 1) = (k + 1) + digits.length by omega]
    refine brief_digits digits hrest ?_
    rw [Nat.pow_succ]
    omega

theorem read_wholeNumber {digits : List Char} (hdigits : ∀ d ∈ digits, isDigit d = true)
    (h : wholeNumber digits = .ok t) : Read t := by
  unfold wholeNumber at h
  split at h
  · cases h
  · rename_i hbound
    cases h
    refine read_num (.inl ⟨_, rfl⟩) fun i hi => ?_
    cases hi
    have hle : 10 ^ digits.length ≤ 10 ^ Datum.digitBound := by
      rw [Nat.pow_le_pow_iff_right (by decide)]
      exact Nat.not_lt.mp hbound
    have hlt := brief_digits digits hdigits (n := 0) (k := 0) (by decide)
    rw [Nat.zero_add] at hlt
    exact Nat.lt_of_lt_of_le hlt hle

theorem read_pointNumber (digits places : List Char) : Read (pointNumber digits places) := by
  unfold pointNumber
  refine read_num (.inr ⟨_, _, rfl⟩) fun i hi => ?_
  cases hi

theorem lexeme_cases {cs rest : List Char} (h : lexeme c cs = .ok (t, rest)) :
    (∃ digits, (∀ d ∈ digits, isDigit d = true) ∧ wholeNumber digits = .ok t)
      ∨ (∃ digits places, t = pointNumber digits places)
      ∨ (∃ s, t = ⟨"str", .text s⟩)
      ∨ (∃ letters, letters ≠ [] ∧ (∀ c ∈ letters, isNamePart c = true) ∧ t = word letters)
      ∨ (∃ c ∈ singles, t = ⟨c.toString, .null⟩)
      ∨ ∃ c d, second? c = some d ∧ (t = ⟨String.ofList [c, d], .null⟩ ∨ t = ⟨c.toString, .null⟩) := by
  unfold lexeme at h
  split at h
  · rename_i hc
    split at h
    · cases h
      exact Or.inr (Or.inl ⟨_, _, rfl⟩)
    · dsimp only at h
      cases hw : wholeNumber (c :: cs.takeWhile isDigit) with
      | error e =>
        rw [hw] at h
        cases h
      | ok t' =>
        rw [hw] at h
        cases h
        exact Or.inl ⟨_, forall_mem_cons.mpr ⟨hc, all_eq_true.mp all_takeWhile⟩, hw⟩
  · split at h
    · split at h
      · cases h
      · cases h
        exact Or.inr (Or.inr (Or.inl ⟨_, rfl⟩))
    · split at h
      · rename_i hc
        split at h
        · cases h
        · cases h
          refine Or.inr (Or.inr (Or.inr (Or.inl ⟨_, cons_ne_nil _ _, forall_mem_cons.mpr ⟨?_, ?_⟩, rfl⟩)))
          · rcases Bool.or_eq_true_iff.mp hc with hc | hc <;> simp [isNamePart, hc]
          · exact all_eq_true.mp all_takeWhile
      · split at h
        · rename_i hc
          cases h
          exact Or.inr (Or.inr (Or.inr (Or.inr (Or.inl ⟨c, hc, rfl⟩))))
        · refine Or.inr (Or.inr (Or.inr (Or.inr (Or.inr ?_))))
          split at h
          · cases h
          · rename_i d hd
            split at h
            · split at h
              · cases h
                exact ⟨c, d, hd, Or.inl rfl⟩
              · cases h
                exact ⟨c, d, hd, Or.inr rfl⟩
            · cases h
              exact ⟨c, d, hd, Or.inr rfl⟩

theorem read_lexeme {cs rest : List Char} (h : lexeme c cs = .ok (t, rest)) : Read t := by
  obtain ⟨_, hdigits, hw⟩ | ⟨_, _, rfl⟩ | ⟨_, rfl⟩ | ⟨_, hne, hword, rfl⟩ | ⟨_, hc, rfl⟩ | ⟨_, _, hd, rfl | rfl⟩ := lexeme_cases h
  · exact read_wholeNumber hdigits hw
  · exact read_pointNumber _ _
  · exact read_str _
  · exact read_word hne hword
  · exact read_single hc
  · exact (read_second hd).1
  · exact (read_second hd).2

theorem forall_mem_scan
    (hP : ∀ {c : Char} {cs rest : List Char} {t : Token}, lexeme c cs = .ok (t, rest) → P t) :
    ∀ (cs : List Char) {ts : List Token}, scan cs = .ok ts → ∀ t ∈ ts, P t
  | [], ts, h => by
    rw [scan] at h
    cases h
    simp
  | c :: rest, ts, h => by
    rw [scan] at h
    split at h
    · exact forall_mem_scan hP rest h
    · split at h
      · cases h
      · rename_i t rest' hlex
        have hlen := length_lexeme hlex
        split at h
        · cases h
        · rename_i ts' hscan
          cases h
          intro u hu
          rcases mem_cons.mp hu with rfl | hu
          · exact hP hlex
          · exact forall_mem_scan hP rest' hscan u hu
termination_by cs => cs.length
decreasing_by all_goals (simp_wf <;> omega)

theorem read_scan (cs : List Char) (h : scan cs = .ok ts) : ∀ t ∈ ts, Read t :=
  forall_mem_scan read_lexeme cs h

end Token

/-! ## Trees -/

/-- A function as it is defined. -/
structure Function where
  name : Datum
  params : List Datum
  body : Node

namespace Node

mutual

/-- The functions that a statement defines, those inside their bodies included, in the order of the
text. -/
def functions : Node → List Function
  | .program body => functionsAll body
  | .block body => functionsAll body
  | .ifThen _ yes => functions yes
  | .ifElse _ yes no => functions yes ++ functions no
  | .loop _ body => functions body
  | .define x value =>
    match value with
    | .function params body => ⟨x, params, body⟩ :: functions body
    | _ => []
  | _ => []

def functionsAll : List Node → List Function
  | [] => []
  | n :: ns => functions n ++ functionsAll ns

end

mutual

/-- A node and all that lies inside of it. -/
def parts : Node → List Node
  | .program body => .program body :: partsAll body
  | .block body => .block body :: partsAll body
  | .define x value => .define x value :: parts value
  | .assign x value => .assign x value :: parts value
  | .print args => .print args :: partsAll args
  | .ifThen cond yes => .ifThen cond yes :: (parts cond ++ parts yes)
  | .ifElse cond yes no => .ifElse cond yes no :: (parts cond ++ (parts yes ++ parts no))
  | .loop cond body => .loop cond body :: (parts cond ++ parts body)
  | .returnValue value => .returnValue value :: parts value
  | .exprStat e => .exprStat e :: parts e
  | .unary op e => .unary op e :: parts e
  | .binary op l r => .binary op l r :: (parts l ++ parts r)
  | .call callee args => .call callee args :: (parts callee ++ partsAll args)
  | .function params body => .function params body :: parts body
  | n => [n]

def partsAll : List Node → List Node
  | [] => []
  | n :: ns => parts n ++ partsAll ns

end

theorem functions_variable {x : Datum} {value : Node} (h : ∀ params body, value ≠ .function params body) :
    functions (.define x value) = [] := by
  rw [functions]
  exact h

mutual

/-- The tokens with a value that a node was made of. -/
def leaves : Node → List Token
  | .program body => leavesAll body
  | .block body => leavesAll body
  | .define x value => ⟨"id", x⟩ :: leaves value
  | .assign x value => ⟨"id", x⟩ :: leaves value
  | .print args => leavesAll args
  | .ifThen cond yes => leaves cond ++ leaves yes
  | .ifElse cond yes no => leaves cond ++ (leaves yes ++ leaves no)
  | .loop cond body => leaves cond ++ leaves body
  | .returnValue value => leaves value
  | .exprStat e => leaves e
  | .name x => [⟨"id", x⟩]
  | .literal kind fields => fields.map fun d => ⟨kind.tag, d⟩
  | .unary _ e => leaves e
  | .binary _ l r => leaves l ++ leaves r
  | .call callee args => leaves callee ++ leavesAll args
  | .function params body => params.map (fun x => ⟨"id", x⟩) ++ leaves body
  | _ => []

def leavesAll : List Node → List Token
  | [] => []
  | n :: ns => leaves n ++ leavesAll ns

end

mutual

/-- How many tokens a node takes at least: those between arguments or parameters are not counted, nor are parentheses
around an expression. -/
def bulk : Node → Nat
  | .program body => bulkAll body
  | .block body => bulkAll body + 2
  | .define _ value => bulk value + 4
  | .assign _ value => bulk value + 3
  | .print args => bulkAll args + 4
  | .ifThen cond yes => bulk cond + (bulk yes + 1) + 2
  | .ifElse cond yes no => bulk cond + (bulk yes + (bulk no + 1) + 1) + 2
  | .loop cond body => bulk cond + (bulk body + 1) + 2
  | .breakLoop | .continueLoop | .return => 2
  | .returnValue value => bulk value + 2
  | .exprStat e => bulk e + 1
  | .unary _ e => bulk e + 1
  | .binary _ l r => bulk l + (bulk r + 1)
  | .call callee args => bulk callee + (bulkAll args + 2)
  | .function params body => params.length + (bulk body + 1) + 2
  | .name _ | .literal .. => 1
  | _ => 0

def bulkAll : List Node → Nat
  | [] => 0
  | n :: ns => bulk n + bulkAll ns

end

mutual

inductive IsExpr : Node → Prop
  | name (x : Datum) : IsExpr (.name x)
  | literal (kind : LiteralKind) (d : Datum) : IsExpr (.literal kind [d])
  | unary {op : Datum} {e : Node} : IsExpr e → IsExpr (.unary op e)
  | binary {op : Datum} {l r : Node} : IsExpr l → IsExpr r → IsExpr (.binary op l r)
  | call {f : Node} {args : List Node} : IsExpr f → AreExprs args → IsExpr (.call f args)
  | function (xs : List Datum) {body : List Node} : AreStats body → IsExpr (.function xs (.block body))

inductive AreExprs : List Node → Prop
  | nil : AreExprs []
  | cons {e : Node} {es : List Node} : IsExpr e → AreExprs es → AreExprs (e :: es)

inductive IsStat : Node → Prop
  | exprStat {e : Node} : IsExpr e → IsStat (.exprStat e)
  | print {args : List Node} : AreExprs args → IsStat (.print args)
  | ifThen {cond yes : Node} : IsExpr cond → IsStat yes → IsStat (.ifThen cond yes)
  | ifElse {cond yes no : Node} :
      IsExpr cond → IsStat yes → IsStat no → IsStat (.ifElse cond yes no)
  | loop {cond body : Node} : IsExpr cond → IsStat body → IsStat (.loop cond body)
  | breakLoop : IsStat .breakLoop
  | continueLoop : IsStat .continueLoop
  | block {body : List Node} : AreStats body → IsStat (.block body)
  | define (x : Datum) {value : Node} :
      IsExpr value → (∀ params body, value ≠ .function params body) → IsStat (.define x value)
  | function (x : Datum) (xs : List Datum) {body : List Node} :
      AreStats body → IsStat (.define x (.function xs (.block body)))
  | assign (x : Datum) {value : Node} : IsExpr value → IsStat (.assign x value)
  | return : IsStat .return
  | returnValue {value : Node} : IsExpr value → IsStat (.returnValue value)

inductive AreStats : List Node → Prop
  | nil : AreStats []
  | cons {s : Node} {ss : List Node} : IsStat s → AreStats ss → AreStats (s :: ss)

end

theorem IsExpr.isStat {value : Node} (h : IsExpr value) (x : Datum) : IsStat (.define x value) := by
  cases h with
  | function xs hbody => exact .function x xs hbody
  | name y => exact .define x (.name y) (by simp)
  | literal kind d => exact .define x (.literal kind d) (by simp)
  | unary he => exact .define x (.unary he) (by simp)
  | binary hl hr => exact .define x (.binary hl hr) (by simp)
  | call hf hargs => exact .define x (.call hf hargs) (by simp)

mutual

/-- Expressions made of tokens with some property, with the operators of the grammar. -/
inductive WrittenExpr (P : Token → Prop) : Node → Prop
  | name {x : Datum} : P ⟨"id", x⟩ → WrittenExpr P (.name x)
  | literal {kind : LiteralKind} {d : Datum} : P ⟨kind.tag, d⟩ → WrittenExpr P (.literal kind [d])
  | unary {op : String} {e : Node} : op = "-" ∨ op = "!" → WrittenExpr P e → WrittenExpr P (.unary (.text op) e)
  | binary {k : Nat} {op : String} {l r : Node} :
      op ∈ Grammar.operators k → WrittenExpr P l → WrittenExpr P r → WrittenExpr P (.binary (.text op) l r)
  | call {f : Node} {args : List Node} : WrittenExpr P f → WrittenExprs P args → WrittenExpr P (.call f args)
  | function {xs : List Datum} {body : List Node} :
      (∀ x ∈ xs, P ⟨"id", x⟩) → WrittenStats P body → WrittenExpr P (.function xs (.block body))

inductive WrittenExprs (P : Token → Prop) : List Node → Prop
  | nil : WrittenExprs P []
  | cons {e : Node} {es : List Node} : WrittenExpr P e → WrittenExprs P es → WrittenExprs P (e :: es)

inductive WrittenStat (P : Token → Prop) : Node → Prop
  | exprStat {e : Node} : WrittenExpr P e → WrittenStat P (.exprStat e)
  | print {args : List Node} : WrittenExprs P args → WrittenStat P (.print args)
  | ifThen {cond yes : Node} : WrittenExpr P cond → WrittenStat P yes → WrittenStat P (.ifThen cond yes)
  | ifElse {cond yes no : Node} :
      WrittenExpr P cond → WrittenStat P yes → WrittenStat P no → WrittenStat P (.ifElse cond yes no)
  | loop {cond body : Node} : WrittenExpr P cond → WrittenStat P body → WrittenStat P (.loop cond body)
  | breakLoop : WrittenStat P .breakLoop
  | continueLoop : WrittenStat P .continueLoop
  | block {body : List Node} : WrittenStats P body → WrittenStat P (.block body)
  | define {x : Datum} {value : Node} : P ⟨"id", x⟩ → WrittenExpr P value → WrittenStat P (.define x value)
  | assign {x : Datum} {value : Node} : P ⟨"id", x⟩ → WrittenExpr P value → WrittenStat P (.assign x value)
  | return : WrittenStat P .return
  | returnValue {value : Node} : WrittenExpr P value → WrittenStat P (.returnValue value)

inductive WrittenStats (P : Token → Prop) : List Node → Prop
  | nil : WrittenStats P []
  | cons {s : Node} {ss : List Node} : WrittenStat P s → WrittenStats P ss → WrittenStats P (s :: ss)

end

mutual

theorem WrittenExpr.isExpr : ∀ {e : Node}, WrittenExpr P e → IsExpr e
  | _, @WrittenExpr.name _ x _ => .name x
  | _, @WrittenExpr.literal _ kind d _ => .literal kind d
  | _, .unary _ he => .unary he.isExpr
  | _, .binary _ hl hr => .binary hl.isExpr hr.isExpr
  | _, .call hf hargs => .call hf.isExpr hargs.areExprs
  | _, @WrittenExpr.function _ xs _ _ hbody => .function xs hbody.areStats

theorem WrittenExprs.areExprs : ∀ {es : List Node}, WrittenExprs P es → AreExprs es
  | _, .nil => .nil
  | _, .cons he hes => .cons he.isExpr hes.areExprs

theorem WrittenStat.isStat : ∀ {n : Node}, WrittenStat P n → IsStat n
  | _, .exprStat he => .exprStat he.isExpr
  | _, .print hargs => .print hargs.areExprs
  | _, .ifThen hcond hyes => .ifThen hcond.isExpr hyes.isStat
  | _, .ifElse hcond hyes hno => .ifElse hcond.isExpr hyes.isStat hno.isStat
  | _, .loop hcond hbody => .loop hcond.isExpr hbody.isStat
  | _, .breakLoop => .breakLoop
  | _, .continueLoop => .continueLoop
  | _, .block hbody => .block hbody.areStats
  | _, @WrittenStat.define _ x _ _ hvalue => hvalue.isExpr.isStat x
  | _, @WrittenStat.assign _ x _ _ hvalue => .assign x hvalue.isExpr
  | _, .return => .return
  | _, .returnValue hvalue => .returnValue hvalue.isExpr

theorem WrittenStats.areStats : ∀ {ns : List Node}, WrittenStats P ns → AreStats ns
  | _, .nil => .nil
  | _, .cons hn hns => .cons hn.isStat hns.areStats

end

end Node

namespace Grammar

open Node

/-! ### What is taken from tokens -/

/-- Leaves are among the tokens, in their order, and the tokens are at least so many. -/
structure Takes (ts leaves : List Token) (bulk : Nat) : Prop where
  leaves : leaves.Sublist ts
  bulk : bulk ≤ ts.length

namespace Takes

variable {ts us l l' : List Token} {b b' : Nat}

theorem nil : Takes [] [] 0 := ⟨.refl _, Nat.le_refl 0⟩

theorem append (h : Takes ts l b) (h' : Takes us l' b') : Takes (ts ++ us) (l ++ l') (b + b') :=
  ⟨h.leaves.append h'.leaves, by simpa using Nat.add_le_add h.bulk h'.bulk⟩

theorem cons (h : Takes ts l b) (t : Token) : Takes (t :: ts) l (b + 1) :=
  ⟨h.leaves.cons t, Nat.succ_le_succ h.bulk⟩

theorem leaf (h : Takes ts l b) (ht : t.tag = tag) :
    Takes (t :: ts) (⟨tag, t.value⟩ :: l) (b + 1) := by
  cases ht
  exact ⟨h.leaves.cons_cons t, Nat.succ_le_succ h.bulk⟩

theorem before (h : Takes ts l b) (us : List Token) : Takes (ts ++ us) l (b + us.length) :=
  ⟨h.leaves.trans (sublist_append_left ts us), by simpa using h.bulk⟩

theorem mono (h : Takes ts l b) (hle : b' ≤ b) : Takes ts l b' := ⟨h.leaves, Nat.le_trans hle h.bulk⟩

end Takes

theorem MoreParameters.takes (h : MoreParameters ts xs) :
    Takes ts (xs.map fun x => ⟨"id", x⟩) xs.length := by
  induction h with
  | none => exact .nil
  | more _ hx _ ih => exact ((ih.leaf hx).cons _).mono (Nat.le_succ _)

theorem Parameters.takes (h : Parameters ts xs) :
    Takes ts (xs.map fun x => ⟨"id", x⟩) xs.length := by
  cases h with
  | none => exact .nil
  | some hx hmore => exact hmore.takes.leaf hx

mutual

theorem Layer.takes : ∀ {k : Nat} {ts : List Token} {e : Node}, Layer k ts e → Takes ts (leaves e) (bulk e)
  | _, _, _, .lift _ h => h.takes
  | _, _, _, .binary hl _ hr => by
    rw [leaves, bulk]
    exact hl.takes.append (hr.takes.cons _)
  | _, _, _, .sign _ he => by
    rw [leaves, bulk]
    exact he.takes.cons _
  | _, _, _, .call hf _ hargs _ => by
    rw [leaves, bulk]
    exact hf.takes.append ((hargs.takes.before [_]).cons _)
  | _, _, _, .name hx => by
    rw [leaves, bulk]
    exact Takes.nil.leaf hx
  | _, _, _, .literal ht => by
    rw [leaves, bulk]
    exact Takes.nil.leaf ht
  | _, _, _, .parens _ he _ => ((he.takes.before [_]).cons _).mono (Nat.le_add_right _ 2)
  | _, _, _, .function _ _ hparams _ hbody => by
    rw [leaves, bulk]
    exact ((hparams.takes.append (hbody.takes.cons _)).cons _).cons _

theorem MoreArguments.takes : ∀ {ts : List Token} {es : List Node}, MoreArguments ts es →
    Takes ts (leavesAll es) (bulkAll es)
  | _, _, .none => .nil
  | _, _, .more _ he hes => by
    rw [leavesAll, bulkAll]
    exact ((he.takes.append hes.takes).cons _).mono (Nat.le_succ _)

theorem Arguments.takes : ∀ {ts : List Token} {es : List Node}, Arguments ts es →
    Takes ts (leavesAll es) (bulkAll es)
  | _, _, .none => .nil
  | _, _, .some he hes => by
    rw [leavesAll, bulkAll]
    exact he.takes.append hes.takes

theorem Block.takes : ∀ {ts : List Token} {b : Node}, Block ts b → Takes ts (leaves b) (bulk b)
  | _, _, .braces _ hbody _ => by
    rw [leaves, bulk]
    exact (hbody.takes.before [_]).cons _

theorem Statements.takes : ∀ {ts : List Token} {ss : List Node}, Statements ts ss →
    Takes ts (leavesAll ss) (bulkAll ss)
  | _, _, .nil => .nil
  | _, _, .cons hs hss => by
    rw [leavesAll, bulkAll]
    exact hs.takes.append hss.takes

theorem Statement.takes : ∀ {ts : List Token} {s : Node}, Statement ts s → Takes ts (leaves s) (bulk s)
  | _, _, .define _ hx _ he _ => by
    rw [leaves, bulk]
    exact (((he.takes.before [_]).cons _).leaf hx).cons _
  | _, _, .assign hx _ he _ => by
    rw [leaves, bulk]
    exact ((he.takes.before [_]).cons _).leaf hx
  | _, _, .print _ _ hargs _ _ => by
    rw [leaves, bulk]
    exact ((hargs.takes.before [_, _]).cons _).cons _
  | _, _, .ifThen _ _ hcond _ hyes => by
    rw [leaves, bulk]
    exact ((hcond.takes.append (hyes.takes.cons _)).cons _).cons _
  | _, _, .ifElse _ _ hcond _ hyes _ _ hno => by
    rw [leaves, bulk]
    exact ((hcond.takes.append ((hyes.takes.append (hno.takes.cons _)).cons _)).cons _).cons _
  | _, _, .loop _ _ hcond _ hbody => by
    rw [leaves, bulk]
    exact ((hcond.takes.append (hbody.takes.cons _)).cons _).cons _
  | _, _, .breakLoop _ _ | _, _, .continueLoop _ _ | _, _, .return _ _ => (Takes.nil.cons _).cons _
  | _, _, .returnValue _ he _ => by
    rw [leaves, bulk]
    exact (he.takes.before [_]).cons _
  | _, _, .block hb => hb.takes
  | _, _, .exprStat he _ => by
    rw [leaves, bulk]
    exact he.takes.before [_]

end

/-! ### Statements and expressions -/

section

variable {P : Token → Prop}

theorem of_tag (h : P t) (htag : t.tag = tag) : P ⟨tag, t.value⟩ := by
  cases htag
  exact h

theorem Parameters.written (h : Parameters ts xs) (hts : ∀ t ∈ ts, P t) :
    ∀ x ∈ xs, P ⟨"id", x⟩ :=
  fun _ hx => hts _ (h.takes.leaves.subset (mem_map_of_mem hx))

mutual

theorem Layer.written : ∀ {k : Nat} {ts : List Token} {e : Node}, Layer k ts e → (∀ t ∈ ts, P t) → WrittenExpr P e
  | _, _, _, .lift _ h, hts => h.written hts
  | _, _, _, .binary hl hop hr, hts => by
    obtain ⟨hleft, hright⟩ := forall_mem_append.mp hts
    exact .binary hop (hl.written hleft) (hr.written (forall_mem_cons.mp hright).2)
  | _, _, _, .sign hop he, hts => .unary hop (he.written (forall_mem_cons.mp hts).2)
  | _, _, _, .call hf _ hargs _, hts => by
    obtain ⟨hcallee, hrest⟩ := forall_mem_append.mp hts
    exact .call (hf.written hcallee) (hargs.written (forall_mem_append.mp (forall_mem_cons.mp hrest).2).1)
  | _, _, _, .name hx, hts => .name (of_tag (forall_mem_singleton.mp hts) hx)
  | _, _, _, .literal ht, hts => .literal (of_tag (forall_mem_singleton.mp hts) ht)
  | _, _, _, .parens _ he _, hts => he.written (forall_mem_append.mp (forall_mem_cons.mp hts).2).1
  | _, _, _, .function _ _ hparams _ hbody, hts => by
    obtain ⟨hbefore, hbehind⟩ := forall_mem_append.mp (forall_mem_cons.mp (forall_mem_cons.mp hts).2).2
    obtain ⟨body, rfl, hstats⟩ := hbody.written (forall_mem_cons.mp hbehind).2
    exact .function (hparams.written hbefore) hstats

theorem MoreArguments.written : ∀ {ts : List Token} {es : List Node}, MoreArguments ts es → (∀ t ∈ ts, P t) → WrittenExprs P es
  | _, _, .none, _ => .nil
  | _, _, .more _ he hes, hts => by
    obtain ⟨hfirst, hrest⟩ := forall_mem_append.mp (forall_mem_cons.mp hts).2
    exact .cons (he.written hfirst) (hes.written hrest)

theorem Arguments.written : ∀ {ts : List Token} {es : List Node}, Arguments ts es → (∀ t ∈ ts, P t) → WrittenExprs P es
  | _, _, .none, _ => .nil
  | _, _, .some he hes, hts => by
    obtain ⟨hfirst, hrest⟩ := forall_mem_append.mp hts
    exact .cons (he.written hfirst) (hes.written hrest)

theorem Block.written : ∀ {ts : List Token} {b : Node}, Block ts b → (∀ t ∈ ts, P t) → ∃ body, b = .block body ∧ WrittenStats P body
  | _, _, .braces _ hbody _, hts =>
    ⟨_, rfl, hbody.written (forall_mem_append.mp (forall_mem_cons.mp hts).2).1⟩

theorem Statements.written : ∀ {ts : List Token} {ss : List Node}, Statements ts ss → (∀ t ∈ ts, P t) → WrittenStats P ss
  | _, _, .nil, _ => .nil
  | _, _, .cons hs hss, hts => by
    obtain ⟨hfirst, hrest⟩ := forall_mem_append.mp hts
    exact .cons (hs.written hfirst) (hss.written hrest)

theorem Statement.written : ∀ {ts : List Token} {s : Node}, Statement ts s → (∀ t ∈ ts, P t) → WrittenStat P s
  | _, _, .define _ hx _ he _, hts => by
    obtain ⟨hname, hrest⟩ := forall_mem_cons.mp (forall_mem_cons.mp hts).2
    exact .define (of_tag hname hx) (he.written (forall_mem_append.mp (forall_mem_cons.mp hrest).2).1)
  | _, _, .assign hx _ he _, hts => by
    obtain ⟨hname, hrest⟩ := forall_mem_cons.mp hts
    exact .assign (of_tag hname hx) (he.written (forall_mem_append.mp (forall_mem_cons.mp hrest).2).1)
  | _, _, .print _ _ hargs _ _, hts =>
    .print (hargs.written (forall_mem_append.mp (forall_mem_cons.mp (forall_mem_cons.mp hts).2).2).1)
  | _, _, .ifThen _ _ hcond _ hyes, hts => by
    obtain ⟨htest, hrest⟩ := forall_mem_append.mp (forall_mem_cons.mp (forall_mem_cons.mp hts).2).2
    exact .ifThen (hcond.written htest) (hyes.written (forall_mem_cons.mp hrest).2)
  | _, _, .ifElse _ _ hcond _ hyes _ _ hno, hts => by
    obtain ⟨htest, hrest⟩ := forall_mem_append.mp (forall_mem_cons.mp (forall_mem_cons.mp hts).2).2
    obtain ⟨hfirst, hsecond⟩ := forall_mem_append.mp (forall_mem_cons.mp hrest).2
    exact .ifElse (hcond.written htest) (hyes.written hfirst) (hno.written (forall_mem_cons.mp hsecond).2)
  | _, _, .loop _ _ hcond _ hbody, hts => by
    obtain ⟨htest, hrest⟩ := forall_mem_append.mp (forall_mem_cons.mp (forall_mem_cons.mp hts).2).2
    exact .loop (hcond.written htest) (hbody.written (forall_mem_cons.mp hrest).2)
  | _, _, .breakLoop _ _, _ => .breakLoop
  | _, _, .continueLoop _ _, _ => .continueLoop
  | _, _, .return _ _, _ => .return
  | _, _, .returnValue _ he _, hts =>
    .returnValue (he.written (forall_mem_append.mp (forall_mem_cons.mp hts).2).1)
  | _, _, .block hb, hts => by
    obtain ⟨body, rfl, hbody⟩ := hb.written hts
    exact .block hbody
  | _, _, .exprStat he _, hts => .exprStat (he.written (forall_mem_append.mp hts).1)

end

end

end Grammar

namespace Node

/-- Every statement of a program is derived from tokens of it, up to an end mark. -/
theorem statements_of_parseProgram : ∀ {ts : List Token} {body : List Node}, parseProgram ts = .ok body →
    ∃ us, us.Sublist ts ∧ Grammar.Statements us body
  | ts, body, h => by
    rw [parseProgram] at h
    split at h
    · cases h
      exact ⟨[], nil_sublist _, .nil⟩
    · split at h
      · cases h
      · rename_i s rest hr hparse
        split at h
        · cases h
        · rename_i ss hrest
          cases h
          obtain ⟨used, rfl, hstat, -⟩ := parseStatement_sound _ hparse
          obtain ⟨us, hsub, hstats⟩ := statements_of_parseProgram hrest
          exact ⟨used ++ us, (Sublist.refl used).append hsub, .cons hstat hstats⟩
termination_by ts => ts.length

theorem statements_of_parse (h : Node.parse ts = .ok (.program body)) :
    ∃ us, us.Sublist ts ∧ Grammar.Statements us body := by
  unfold Node.parse at h
  cases hp : parseProgram ts with
  | error e =>
    rw [hp] at h
    cases h
  | ok body' =>
    rw [hp] at h
    cases h
    exact statements_of_parseProgram hp

theorem written_of_parse (h : Node.parse ts = .ok (.program body))
    (hts : ∀ t ∈ ts, P t) : WrittenStats P body := by
  obtain ⟨us, hsub, hstats⟩ := statements_of_parse h
  exact hstats.written fun t ht => hts t (hsub.subset ht)

/-- Tokens that are read at all are read to a program of statements. -/
theorem areStats_of_parse (h : Node.parse ts = .ok (.program body)) :
    AreStats body ∧ Grammar.Takes ts (leavesAll body) (bulkAll body) := by
  obtain ⟨us, hsub, hstats⟩ := statements_of_parse h
  exact ⟨(written_of_parse h fun t ht => ht).areStats, hstats.takes.leaves.trans hsub,
    Nat.le_trans hstats.takes.bulk hsub.length_le⟩

theorem exists_program_of_parse (h : Node.parse ts = .ok n) : ∃ body, n = .program body := by
  unfold Node.parse at h
  cases hp : parseProgram ts with
  | error e =>
    rw [hp] at h
    cases h
  | ok body =>
    rw [hp] at h
    cases h
    exact ⟨body, rfl⟩

theorem lex_of_text (h : Node.ofText src = .ok n) :
    ∃ ts body, Token.lex src = .ok ts ∧ Node.parse ts = .ok (.program body) ∧ n = .program body := by
  unfold Node.ofText Token.ofText at h
  cases hlex : Token.lex src with
  | error e =>
    rw [hlex] at h
    cases h
  | ok ts =>
    rw [hlex] at h
    have hparse : Node.ofTokens ts = .ok n := h
    unfold Node.ofTokens at hparse
    cases hp : Node.parse ts with
    | error e =>
      rw [hp] at hparse
      cases hparse
    | ok n' =>
      rw [hp] at hparse
      cases hparse
      obtain ⟨body, rfl⟩ := exists_program_of_parse hp
      exact ⟨ts, body, rfl, hp, rfl⟩

theorem parse_of_text (h : Node.ofText src = .ok n) :
    ∃ ts body, Node.parse ts = .ok (.program body) ∧ n = .program body ∧ ∀ t ∈ ts, t.Read := by
  obtain ⟨ts, body, hlex, hparse, hn⟩ := lex_of_text h
  exact ⟨ts, body, hparse, hn, Token.read_scan src.toList hlex⟩

/-- A text that is read at all is read to a program of statements. -/
theorem areStats_of_text (h : Node.ofText src = .ok n) :
    ∃ body, n = .program body ∧ AreStats body := by
  obtain ⟨ts, body, hparse, rfl, -⟩ := parse_of_text h
  exact ⟨body, rfl, (areStats_of_parse hparse).1⟩

theorem leaves_of_text (h : Node.ofText src = .ok (.program body)) :
    ∀ t ∈ leavesAll body, t.Lexed := by
  obtain ⟨ts, body', hparse, hbody, hts⟩ := parse_of_text h
  cases hbody
  exact fun t ht => (hts t ((areStats_of_parse hparse).2.leaves.subset ht)).lexed

theorem written_of_text (h : Node.ofText src = .ok (.program body)) :
    WrittenStats Token.Read body := by
  obtain ⟨ts, body', hparse, hbody, hts⟩ := parse_of_text h
  cases hbody
  exact written_of_parse hparse hts

end Node

end Cilly
