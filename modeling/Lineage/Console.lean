import Lineage.Json.Printer
import Lineage.Markup
import Lineage.Text.Blank

/-!
# The console

What a command shows. For machines it is lines of text and JSON; for humans it is markup, trees and
tables that a terminal lays out. A console for machines drops the tags of markup and whatever is
not text.
-/

namespace Lineage

/-! ## Items -/

inductive Tree
  | node (label : String) (children : List Tree)

structure Column where
  header : String
  style : String := ""
  justify : String := "left"

/-- Something to be laid out for a human. -/
inductive Item
  | text (markup : String)
  | tree (tree : Tree)
  | table (title : String) (columns : List Column) (rows : List (List String))

/-- Something that a command puts out. -/
inductive Emission
  | echo (line : String)
  | render (item : Item)

namespace Emission

def echoed (es : List Emission) : List String :=
  es.filterMap fun e => match e with
    | .echo line => some line
    | .render _ => none

def rendered (es : List Emission) : List Item :=
  es.filterMap fun e => match e with
    | .echo _ => none
    | .render item => some item

end Emission

/-- For whom the output is meant. -/
inductive Audience
  | machine
  | human
  deriving DecidableEq, Repr

/-! ## Environment -/

abbrev Environment := String → Option String

def Environment.isOn (env : Environment) (name : String) : Bool :=
  let value := String.ofList (((env name).getD "").toList.map Char.toLower)
  value == "1" || value == "true" || value == "yes"

/-- The audience that was chosen, or that of the environment; without either it is a machine. -/
def Audience.choose (env : Environment) : Option Audience → Audience
  | some audience => audience
  | none => if env.isOn "DOCGRAPH_HUMAN_MODE" then .human else .machine

namespace Console

/-! ## Printing -/

def plain (markup : String) : String :=
  String.ofList (Text.strip (Markup.removeBrackets 0 markup.toList))

def showItem (audience : Audience) (item : Item) : List Emission :=
  match audience, item with
  | .human, item => [.render item]
  | .machine, .text markup =>
    let line := plain markup
    if line.isEmpty then [] else [.echo line]
  | .machine, _ => []

/-- Shows a JSON value, on one line if `minified` says so or by default for a machine. -/
def showJson (audience : Audience) (value : Json) (minified : Option Bool) : List Emission :=
  let layout := if minified.getD (audience == .machine) then Json.Layout.compact else .indented
  [.echo (value.print layout)]

def showError (audience : Audience) (message : String) : List Emission :=
  match audience with
  | .machine =>
    let value := Json.object [("status", .string "error"), ("message", .string message)]
    [.echo (value.print .spaced)]
  | .human => [.render (.text ("[red]Error:[/red] " ++ Markup.escape message))]

end Console

end Lineage
