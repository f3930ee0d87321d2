import Cilly.Datum.Layout
import Cilly.Sample
import Cilly.Studio.Canvas
import Cilly.Studio.Editor
import Cilly.Studio.Worker
import Cilly.Text.Blank

/-!
# The window

The editor, the canvas and the views of a program: its output, tokens, tree, code and JavaScript, the
output of the JavaScript, and both outputs side by side. An action changes the window, and may warn the
user or run the JavaScript outside.
-/

namespace Cilly

inductive Tab where
  | editor
  | output
  | script
  | scriptOutput
  | comparison
  | tokens
  | tree
  | code
  deriving DecidableEq, Repr

def Tab.title : Tab → String
  | .editor => "代码编辑器"
  | .output => "Cilly 输出"
  | .script => "JavaScript 代码"
  | .scriptOutput => "JavaScript 输出"
  | .comparison => "对比结果"
  | .tokens => "词法单元"
  | .tree => "抽象语法树"
  | .code => "字节码"

/-- What comes of running JavaScript outside. -/
inductive ScriptRun where
  | exited (status : Int) (output errors : String)
  | timedOut
  /-- There is no program that could run it. -/
  | missing
  /-- Another failure, with its line. -/
  | failed (line : String)
  /-- It could not be written to a file, so it was not run. -/
  | unwritten (line : String)
  deriving DecidableEq, Repr

namespace ScriptRun

/-- Whether the program outside was started. -/
def started : ScriptRun → Bool
  | .unwritten _ => false
  | _ => true

/-- Its output, or the text about what went wrong. -/
def outcome : ScriptRun → Except String String
  | .exited status output errors => if status = 0 then .ok output else .error ("JavaScript 错误:\n" ++ errors)
  | .timedOut => .error "JavaScript 执行超时 (10 秒)"
  | .missing => .error "未找到 Node.js。请安装 Node.js 以运行 JavaScript 代码。"
  | .failed line => .error ("运行 JavaScript 时出错:\n" ++ line)
  | .unwritten line => .error ("运行 JavaScript 时出错:\n" ++ line)

/-- The text that is shown of it. -/
def report (r : ScriptRun) : String :=
  match r.outcome with
  | .ok output => output
  | .error text => "Error: " ++ text

end ScriptRun

structure Window where
  tab : Tab := .editor
  editor : Editor := {}
  canvas : Canvas := {}
  output : String := ""
  tokens : String := ""
  tree : String := ""
  code : String := ""
  script : String := ""
  scriptOutput : String := ""
  comparison : String × String := ("", "")
  /-- The outputs that a comparison shows. -/
  lastOutput : String := ""
  lastScriptOutput : String := ""
  canRun : Bool := true
  canRunScript : Bool := true
  /-- Where what is printed outside the window goes. -/
  streams : Streams := .initial

/-- What the window is told while it has a program or a script run. -/
inductive Event where
  | signal (name : String) (args : List Datum)
  | results (findings : Findings)
  | output (text : String)
  | error (text : String)
  | finished

/-- What an action does besides changing the window. -/
structure Effects where
  /-- Warnings: title and text. -/
  warnings : List (String × String) := []
  /-- Texts that were run as JavaScript. -/
  scripts : List String := []
  events : List Event := []

namespace Window

/-- An action and what it does besides. -/
abbrev Act := Window → Effects × Window

def quiet (w : Window) : Effects × Window := ({}, w)

def warn (text : String) : Act := fun w => ({ warnings := [("警告", text)] }, w)

def setText (text : String) : Act := fun w => quiet { w with editor := w.editor.setText text }

def setScript (text : String) : Act := fun w => quiet { w with script := text }

/-- The sample with a title; a name will do as well. -/
def sampleFor? (title : String) : Option Sample :=
  match Sample.all.find? fun s => s.title = title with
  | some s => some s
  | none => Sample.named? title

/-- Loads a sample into the editor. -/
def openSample (title : String) : Act := fun w =>
  match sampleFor? title with
  | some s => quiet { w with editor := w.editor.setText s.text, tab := .editor }
  | none => quiet w

/-- The words that a drawing program is known by. -/
def drawingWords : List String := ["forward", "backward", "left", "right", "pencolor"]

/-- Whether a word stands anywhere in a text. -/
def occurs (word : List Char) : List Char → Bool
  | [] => word.isEmpty
  | c :: cs => word.isPrefixOf (c :: cs) || occurs word cs

def draws (text : String) : Bool := drawingWords.any fun w => occurs w.toList text.toList

/-- What a signal of the program tells the canvas to do. -/
def obey (c : Canvas) : String × List Datum → Canvas
  | ("forward", [d]) => c.order (.forward d)
  | ("backward", [d]) => (c.backward d).toOption.getD c
  | ("left", [d]) => c.order (.left d)
  | ("right", [d]) => c.order (.right d)
  | ("penup", _) => c.order .penUp
  | ("pendown", _) => c.order .penDown
  | ("pencolor", [d]) => c.order (.penColor d)
  | ("pensize", [d]) => c.order (.penSize d)
  | ("reset", _) => c.setUp
  | _ => c

/-- Shows the tokens and then the tree. What cannot be written ends it. -/
def showParts (tokens : List Token) (tree : Node) (w : Window) : Except Fault Unit × Window :=
  match (Datum.list (tokens.map Token.toDatum)).pretty with
  | .error f => (.error f, w)
  | .ok tokensText =>
    match tree.toDatum.pretty with
    | .error f => (.error f, { w with tokens := tokensText })
    | .ok treeText => (.ok (), { w with tokens := tokensText, tree := treeText })

def showFailure (f : Failure) (w : Window) : List Event × Window :=
  let text := Work.failureText f
  ([.error text], { w with lastOutput := text, output := text, tab := .output, canRun := true })

/-- Shows what came of a program, as the window is told. Not to be able to show it is a failure as well. -/
def present (outcome : Except Failure Findings) (w : Window) : List Event × Window :=
  match outcome with
  | .error f => showFailure f w
  | .ok found =>
    match showParts found.tokens found.tree w with
    | (.error f, w) =>
      let (told, w) := showFailure (.fault f) w
      (.results found :: told, w)
    | (.ok (), w) =>
      ([.results found],
        { w with
          code := found.listing, lastOutput := found.printed, output := found.printed, tab := .output
          canRun := true })

/-- Runs the program in the editor. A drawing program draws on a canvas of its own. -/
def run (budget : Nat) : Act := fun w =>
  let text := w.editor.text
  if Text.allBlank text then warn "代码编辑器为空。" w
  else
    let cleared := { w with canRun := false, output := "", tokens := "", tree := "", code := "" }
    let (work, streams) := Work.runOn budget text w.streams
    let canvas :=
      if draws text then work.sent.foldl obey { w.canvas.setUp with visible := true } else w.canvas
    let (told, w) := present work.outcome { cleared with canvas := canvas, streams := streams }
    ({ events := work.sent.map (fun s => .signal s.1 s.2) ++ told ++ [.finished] }, w)

/-- The tokens, the tree and the JavaScript of a text. -/
def scripted (text : String) : Except Failure (List Token × Node × String) := do
  let tokens ← Token.ofText text
  let tree ← Node.ofTokens tokens
  let js ← tree.toScript
  let shown ← js.display.mapError .fault
  return (tokens, tree, shown)

/-- Shows the JavaScript of the program in the editor. -/
def transpile : Act := fun w =>
  let text := w.editor.text
  let failed (f : Failure) : Act := fun w =>
    quiet { w with output := "转译过程中发生错误:\n" ++ f.line, tab := .output }
  if Text.allBlank text then warn "代码编辑器为空。" w
  else
    match scripted text with
    | .error f => failed f w
    | .ok (tokens, tree, js) =>
      match showParts tokens tree { w with script := js } with
      | (.error f, w) => failed (.fault f) w
      | (.ok (), w) => quiet { w with tab := .script }

def showScriptOutput (outcome : Except String String) (w : Window) : List Event × Window :=
  let shown (text : String) : Window :=
    { w with lastScriptOutput := text, scriptOutput := text, tab := .scriptOutput, canRunScript := true }
  match outcome with
  | .ok output => ([.output output], shown output)
  | .error text => ([.error text], shown ("Error: " ++ text))

/-- Runs the JavaScript outside, where `outside` comes of it. -/
def runScript (outside : ScriptRun) : Act := fun w =>
  if Text.allBlank w.script then warn "没有可运行的 JavaScript 代码。请先转译 Cilly 代码。" w
  else
    let (told, shown) := showScriptOutput outside.outcome { w with canRunScript := false, scriptOutput := "" }
    ({ scripts := if outside.started then [w.script] else [], events := told ++ [.finished] }, shown)

/-- Shows the last outputs side by side. -/
def compare : Act := fun w =>
  quiet { w with comparison := (w.lastOutput, w.lastScriptOutput), tab := .comparison }

end Window

end Cilly
