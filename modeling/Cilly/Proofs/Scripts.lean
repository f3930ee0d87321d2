import Cilly.Proofs.Acting
import Cilly.Proofs.Written

/-!
# The texts of scripts

What is written for a tree that a text is read to. Such a tree is made of the words, numbers and texts of tokens, so nothing in
it keeps the writer from its end: it gives the text `scriptAt`, which is a function of the tree and the depth alone, and the
depth is afterwards what it was before (`write_program`).
-/

namespace Cilly

open Acting Node List

/-- A number that can be written. -/
def Script.Short (n : Nat) : Prop := n < 10 ^ Datum.digitBound

theorem Datum.intText_of_short {n : Nat} (h : Script.Short n) : Datum.intText n = .ok (Decimal.numeral n) := by
  rw [Datum.intText, Int.natAbs_natCast, if_neg (Nat.not_le_of_lt h), if_neg (Int.not_lt.mpr (Int.natCast_nonneg n)),
    String.empty_append]

/-! ## Texts of trees -/

namespace Node

/-- What stands at the start of a line. -/
def indent (depth : Nat) : String := String.ofList (List.replicate (4 * depth) ' ')

/-- A body in braces. -/
def braced (inner : String) (depth : Nat) : String := " \x7b\n" ++ inner ++ "\n" ++ indent depth ++ "\x7d"

/-- The text of a name or an operator. -/
def wording (d : Datum) : String := d.display.toOption.getD ""

/-- The text of a literal. -/
def literalScript : LiteralKind → List Datum → String
  | .num, d :: _ => wording d
  | .str, d :: _ => d.scripted.toOption.getD ""
  | kind, _ => kind.tag

/-- A function that is called goes by the name that scripts have for it. -/
def calleeScript (s : String) : String := if s ∈ ScriptM.turtleNames then "turtle." ++ s else s

mutual

/-- The text of a tree at a depth of indentation. -/
def scriptAt : Node → Nat → String
  | .program body, depth => String.intercalate ";\n" (scriptsAt body depth) ++ if body.isEmpty then "" else ";"
  | .block body, depth => String.intercalate ";\n" ((scriptsAt body depth).map (indent depth ++ ·))
  | .define x value, depth => "var " ++ wording x ++ " = " ++ scriptAt value depth
  | .assign x value, depth => wording x ++ " = " ++ scriptAt value depth
  | .print args, depth => "console.log(" ++ String.intercalate ", " (scriptsAt args depth) ++ ")"
  | .ifThen cond yes, depth => "if (" ++ scriptAt cond depth ++ ")" ++ braced (scriptAt yes depth) depth
  | .ifElse cond yes no, depth =>
    "if (" ++ scriptAt cond depth ++ ")" ++ braced (scriptAt yes depth) depth ++ " else" ++ braced (scriptAt no (depth + 1)) depth
  | .loop cond body, depth => "while (" ++ scriptAt cond depth ++ ")" ++ braced (scriptAt body (depth + 1)) depth
  | .breakLoop, _ => "break"
  | .continueLoop, _ => "continue"
  | .return, _ => "return"
  | .returnValue value, depth => "return " ++ scriptAt value depth
  | .exprStat e, depth => scriptAt e depth
  | .unary op e, depth => wording op ++ scriptAt e depth
  | .binary op l r, depth => "(" ++ scriptAt l depth ++ " " ++ wording op ++ " " ++ scriptAt r depth ++ ")"
  | .call f args, depth => calleeScript (scriptAt f depth) ++ "(" ++ String.intercalate ", " (scriptsAt args depth) ++ ")"
  | .function params body, depth =>
    "function(" ++ String.intercalate ", " (params.map wording) ++ ")" ++ braced (scriptAt body (depth + 1)) depth
  | .name x, _ => wording x
  | .literal kind fields, _ => literalScript kind fields
  | _, _ => ""

def scriptsAt : List Node → Nat → List String
  | [], _ => []
  | n :: ns, depth => scriptAt n depth :: scriptsAt ns depth

end

@[simp] theorem wording_text (s : String) : wording (.text s) = s := rfl

@[simp] theorem wording_int {n : Nat} (h : Script.Short n) : wording (.int n) = Decimal.numeral n := by
  show (Datum.intText n).toOption.getD "" = _
  rw [Datum.intText_of_short h]
  rfl

@[simp] theorem map_wording_text (xs : List String) : (xs.map Datum.text).map wording = xs := by
  rw [map_map]
  exact map_id xs

theorem scriptAt_function (xs : List String) (body : Node) (depth : Nat) : scriptAt (.function (xs.map .text) body) depth =
    "function(" ++ String.intercalate ", " xs ++ ")" ++ braced (scriptAt body (depth + 1)) depth := by
  show "function(" ++ String.intercalate ", " ((xs.map Datum.text).map wording) ++ ")" ++ _ = _
  rw [map_wording_text]

end Node

/-! ## What is written -/

namespace ScriptM

theorem outcome_joined (separator : String) (items : List String) (depth : Nat) :
    outcome (joined separator (items.map Datum.text)) depth = (.ok (String.intercalate separator items), depth) := by
  have htexts : ∀ (items : List String) (index : Nat), texts index (items.map Datum.text) = .ok items := by
    intro items
    induction items with
    | nil => intro index; rfl
    | cons s items ih =>
      intro index
      rw [map_cons, texts, ih]
      rfl
  unfold joined
  rw [htexts]
  rfl

theorem outcome_shown {d : Datum} {s : String} (h : d.display = .ok s) (depth : Nat) : outcome (shown d) depth = (.ok s, depth) := by
  unfold shown
  rw [h]
  rfl

theorem operator_infix {k : Nat} {op : String} (h : op ∈ Grammar.operators k) : operator (.text op) = .text op := by
  have hword : op ∉ ["eq", "ne", "and", "or"] := by
    revert op
    match k with
    | 0 | 1 | 2 | 3 | 4 | 5 => decide
    | k + 6 => simp [Grammar.operators]
  rw [operator] <;> rintro ⟨⟩ <;> exact absurd hword (by decide)

theorem outcome_raise (depth : Nat) : outcome raise depth = (.ok (), depth + 1) := rfl

theorem outcome_lower (depth : Nat) : outcome lower (depth + 1) = (.ok (), depth) := rfl

theorem outcome_indentation (depth : Nat) : outcome indentation depth = (.ok (indent depth), depth) := rfl

theorem outcome_shown_text (s : String) (depth : Nat) : outcome (shown (.text s)) depth = (.ok s, depth) := rfl

theorem shown_calleeName (s : String) (depth : Nat) : outcome (shown (calleeName (.text s))) depth = (.ok (calleeScript s), depth) := by
  unfold calleeName calleeScript
  dsimp only
  split <;> rfl

theorem outcome_literal {kind : LiteralKind} {fields : List Datum} {s : String} (depth : Nat)
    (h : outcome (literal kind fields) depth = (.ok s, depth)) :
    outcome (write (.literal kind fields)) depth = (.ok (.text s), depth) := by
  rw [write, bind_ok h]
  rfl

theorem not_isAbsent {P : Token → Prop} {n : Node} (h : WrittenStat P n) : isAbsent n = false := by
  cases h <;> rfl

theorem write_block {body : List Node} {depth : Nat}
    (h : outcome (writeLines body) depth = (.ok (((scriptsAt body depth).map (indent depth ++ ·)).map .text), depth)) :
    outcome (write (.block body)) depth = (.ok (.text (scriptAt (.block body) depth)), depth) := by
  rw [write, bind_ok h, bind_ok (outcome_joined ";\n" _ depth)]
  rfl

theorem write_literal {kind : LiteralKind} {d : Datum} (h : Token.Read ⟨kind.tag, d⟩) (depth : Nat) :
    outcome (write (.literal kind [d])) depth = (.ok (.text (scriptAt (.literal kind [d]) depth)), depth) := by
  refine outcome_literal depth ?_
  have hreads := h.literal kind rfl
  cases kind with
  | num =>
    rcases hreads with ⟨n, rfl⟩ | ⟨_, _, rfl⟩
    · have hn : Script.Short n := by
        have hbrief := h.brief n rfl
        rwa [Int.natAbs_natCast] at hbrief
      have hshown : (Datum.int n).display = .ok (Decimal.numeral n) := by
        show Datum.intText n = _
        exact Datum.intText_of_short hn
      unfold literal
      dsimp only
      rw [bind_ok (show outcome (ofFault (field [.int n])) depth = (.ok (.int n), depth) from rfl), outcome_shown hshown,
        ← wording_int hn]
      rfl
    · rfl
  | str =>
    obtain ⟨s, rfl⟩ := hreads
    rfl
  | true | false | null => rfl

theorem words_of_read : ∀ {xs : List Datum}, (∀ x ∈ xs, Token.Read ⟨"id", x⟩) →
    ∃ words : List String, xs = words.map .text ∧ ∀ x ∈ words, Token.IsWord x
  | [], _ => ⟨[], rfl, forall_mem_nil _⟩
  | x :: xs, h => by
    obtain ⟨hx, hxs⟩ := forall_mem_cons.mp h
    obtain ⟨s, rfl, hs⟩ := hx.name rfl
    obtain ⟨words, rfl, hwords⟩ := words_of_read hxs
    exact ⟨s :: words, rfl, forall_mem_cons.mpr ⟨hs, hwords⟩⟩

mutual

theorem write_expr : ∀ {e : Node}, WrittenExpr Token.Read e → ∀ depth : Nat,
    outcome (write e) depth = (.ok (.text (scriptAt e depth)), depth)
  | _, .name hx, depth => by
    obtain ⟨s, rfl, -⟩ := hx.name rfl
    rw [write]
    rfl
  | _, .literal ht, depth => write_literal ht depth
  | _, .unary hop he, depth => by
    rw [write, bind_ok (write_expr he depth)]
    rcases hop with rfl | rfl <;> rfl
  | _, .binary hop hl hr, depth => by
    rw [write, bind_ok (write_expr hl depth), bind_ok (write_expr hr depth), operator_infix hop]
    rfl
  | _, .call hf hargs, depth => by
    rw [write, bind_ok (write_expr hf depth), bind_ok (writeAll_exprs hargs depth), bind_ok (shown_calleeName _ depth),
      bind_ok (outcome_joined ", " _ depth)]
    rfl
  | _, .function hxs hbody, depth => by
    obtain ⟨xs, rfl, -⟩ := words_of_read hxs
    rw [write, bind_ok (outcome_joined ", " xs depth), bind_ok (outcome_raise depth), bind_ok (write_block (writeLines_stats hbody _)),
      bind_ok (outcome_shown_text _ _), bind_ok (outcome_lower depth), bind_ok (outcome_indentation depth), outcome_pure,
      scriptAt_function, braced]
    simp only [String.append_assoc]
    rfl

theorem writeAll_exprs : ∀ {es : List Node}, WrittenExprs Token.Read es → ∀ depth : Nat,
    outcome (writeAll es) depth = (.ok ((scriptsAt es depth).map .text), depth)
  | _, .nil, depth => by
    rw [writeAll]
    rfl
  | _, .cons he hes, depth => by
    rw [writeAll, bind_ok (write_expr he depth), bind_ok (writeAll_exprs hes depth)]
    rfl

theorem write_stat : ∀ {n : Node}, WrittenStat Token.Read n → ∀ depth : Nat,
    outcome (write n) depth = (.ok (.text (scriptAt n depth)), depth)
  | _, .exprStat he, depth => by
    rw [write]
    exact write_expr he depth
  | _, .print hargs, depth => by
    rw [write, bind_ok (writeAll_exprs hargs depth), bind_ok (outcome_joined ", " _ depth)]
    rfl
  | _, .ifThen hcond hyes, depth => by
    rw [write, bind_ok (write_expr hcond depth), bind_ok (write_stat hyes depth), bind_ok (outcome_shown_text _ _),
      bind_ok (outcome_raise depth), bind_ok (outcome_shown_text _ _), bind_ok (outcome_lower depth),
      bind_ok (outcome_indentation depth), outcome_pure, scriptAt, braced]
    simp only [String.append_assoc]
    rfl
  | _, .ifElse hcond hyes hno, depth => by
    rw [write, bind_ok (write_expr hcond depth), bind_ok (write_stat hyes depth), bind_ok (outcome_shown_text _ _),
      bind_ok (outcome_raise depth), bind_ok (outcome_shown_text _ _), bind_ok (outcome_lower depth),
      bind_ok (outcome_indentation depth), not_isAbsent hno, if_neg Bool.false_ne_true, bind_ok (outcome_raise depth),
      bind_ok (write_stat hno (depth + 1)), bind_ok (outcome_shown_text _ _), bind_ok (outcome_lower depth),
      bind_ok (outcome_indentation depth), outcome_pure, scriptAt, braced, braced]
    simp only [String.append_assoc]
    rfl
  | _, .loop hcond hbody, depth => by
    rw [write, bind_ok (write_expr hcond depth), bind_ok (outcome_shown_text _ _), bind_ok (outcome_raise depth),
      bind_ok (write_stat hbody (depth + 1)), bind_ok (outcome_shown_text _ _), bind_ok (outcome_lower depth),
      bind_ok (outcome_indentation depth), outcome_pure, scriptAt, braced]
    simp only [String.append_assoc]
    rfl
  | _, .breakLoop, depth | _, .continueLoop, depth | _, .return, depth => by
    rw [write]
    rfl
  | _, .block hbody, depth => write_block (writeLines_stats hbody depth)
  | _, .define hx hvalue, depth | _, .assign hx hvalue, depth => by
    obtain ⟨s, rfl, -⟩ := hx.name rfl
    rw [write, bind_ok (write_expr hvalue depth)]
    rfl
  | _, .returnValue hvalue, depth => by
    rw [write, bind_ok (write_expr hvalue depth)]
    rfl

theorem writeLines_stats : ∀ {ns : List Node}, WrittenStats Token.Read ns → ∀ depth : Nat,
    outcome (writeLines ns) depth = (.ok (((scriptsAt ns depth).map (indent depth ++ ·)).map .text), depth)
  | _, .nil, depth => by
    rw [writeLines]
    rfl
  | _, .cons hn hns, depth => by
    have hafter : ∀ s : String, outcome (ofFault (after (indent depth) (.text s))) depth = (.ok (.text (indent depth ++ s)), depth) :=
      fun _ => rfl
    rw [writeLines, bind_ok (outcome_indentation depth), bind_ok (write_stat hn depth), bind_ok (hafter _),
      bind_ok (writeLines_stats hns depth)]
    rfl

end

theorem writeAll_stats : ∀ {ns : List Node}, WrittenStats Token.Read ns → ∀ depth : Nat,
    outcome (writeAll ns) depth = (.ok ((scriptsAt ns depth).map .text), depth)
  | _, .nil, depth => by
    rw [writeAll]
    rfl
  | _, .cons hn hns, depth => by
    rw [writeAll, bind_ok (write_stat hn depth), bind_ok (writeAll_stats hns depth)]
    rfl

theorem write_program {body : List Node} (h : WrittenStats Token.Read body) (depth : Nat) :
    outcome (write (.program body)) depth = (.ok (.text (scriptAt (.program body) depth)), depth) := by
  rw [write, bind_ok (writeAll_stats h depth), bind_ok (outcome_joined ";\n" _ depth), outcome_pure, scriptAt]
  cases h with
  | nil => rfl
  | cons => rfl

end ScriptM

end Cilly
