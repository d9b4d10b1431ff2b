import Stepwise.Text.Json
import Stepwise.Tree.Node

/-! Program trees as JSON: every node is a record of its type, its span and its parts. -/

namespace Stepwise

def Span.toJson (s : Span) : JsonValue :=
  .record [(utf8 "from", .integer s.start), (utf8 "to", .integer s.stop),
    (utf8 "start", .record [(utf8 "line", .integer s.line), (utf8 "column", .integer s.column)])]

namespace JsonValue

def ofNode (type : NodeType) (span : Span) (parts : List (String × JsonValue)) : JsonValue :=
  .record ((utf8 "type", .text type.name) :: (utf8 "span", span.toJson)
    :: parts.map fun (key, v) => (utf8 key, v))

/-- A list without items counts as none. -/
def ofList : List JsonValue → JsonValue
  | [] => .null
  | items => .list items

end JsonValue

open JsonValue

def Symbol.toJson (s : Symbol) : JsonValue := ofNode .symbol s.span [("value", .text s.name)]

def Params.toJson (ps : Params) : JsonValue :=
  ofNode .symbolList ps.span [("symbols", ofList (ps.symbols.map Symbol.toJson))]

def symbolJson : Option Symbol → JsonValue
  | none => .null
  | some s => s.toJson

def paramsJson : Option Params → JsonValue
  | none => .null
  | some ps => ps.toJson

mutual

def Expr.toJson : Expr → JsonValue
  | .missing => .null
  | .symbol s => s.toJson
  | .number span n => ofNode .number span [("value", .integer n.toInt)]
  | .boolean span b => ofNode .boolean span [("value", .boolean b)]
  | .null span => ofNode .null span []
  | .string span s => ofNode .string span [("value", .text s)]
  | .forever span => ofNode .forever span []
  | .call span callee args =>
    ofNode .callExpression span
      [("callee", callee.toJson), ("arguments", ofList (exprsJson args))]
  | .function span params body =>
    ofNode .function span [("params", paramsJson params), ("body", body.toJson)]

def exprsJson : List Expr → List JsonValue
  | [] => []
  | e :: es => e.toJson :: exprsJson es

def Block.toJson : Block → JsonValue
  | .missing => .null
  | .of span body => ofNode .block span [("body", ofList (stmtsJson body))]

def stmtsJson : List Stmt → List JsonValue
  | [] => []
  | s :: ss => s.toJson :: stmtsJson ss

def Stmt.toJson : Stmt → JsonValue
  | .missing => .null
  | .set span target value =>
    ofNode .setStatement span [("name", symbolJson target), ("value", value.toJson)]
  | .branch span condition thenBlock elseBlock =>
    ofNode .ifStatement span
      ([("condition", condition.toJson), ("then", thenBlock.toJson)]
        ++ if elseBlock.isMissing then [] else [("else", elseBlock.toJson)])
  | .times span count body =>
    ofNode .timesStatement span [("count", count.toJson), ("body", body.toJson)]
  | .call span callee args =>
    ofNode .callStatement span
      [("callee", callee.toJson), ("arguments", ofList (exprsJson args))]

end

def Program.toJson (p : Program) : JsonValue :=
  ofNode .program p.span [("body", ofList (stmtsJson p.body))]

end Stepwise
