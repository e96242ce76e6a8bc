import PipeLang.Expr.Basic
import PipeLang.Json.Basic
import PipeLang.Token.Literal

/-!
# Expressions as JSON

A node is an object of its kind and its span.  The kind is an object with one member, named for
the node's constructor and holding its parts, or the bare string `"Null"`.

`Expr.toJson?` writes a tree; a tree with an inline node has no JSON form, as the value lives
outside of it.  `Expr.ofJson?` reads one back.  It is lenient in four points: members that it does
not know are ignored, a missing alternative of a conditional counts as none, named parts may be
given as a list of all of them in their order, and a name without parts as an object whose only
member is `null`.
-/

namespace PipeLang

open Json (int str arr obj)

/-! ### Writing -/

/-- The JSON form of a span. -/
def Span.toJson (s : Span) : Json := obj [("offset", int s.offset), ("len", int s.len)]

/-- A node from its kind and span. -/
def Expr.nodeJson (kind : Json) (s : Span) : Json := obj [("kind", kind), ("span", s.toJson)]

/-- The kind of a literal.  A float that is not a number has no JSON form but `null`. -/
def Literal.kindJson : Literal → Json
  | null => .str "Null"
  | bool b => .obj [("Bool", .bool b)]
  | int n => .obj [("Int", .int n.toInt)]
  | float x => .obj [("Float", if x.isFinite then .float x else .null)]
  | str s => .obj [("Str", .str s)]

/-- The JSON form of a scope. -/
def AssignScope.toJson : AssignScope → Json
  | inner => .str "Local"
  | outer => .str "Super"

mutual

/-- The JSON form of a tree; none if a value is spliced into it. -/
def Expr.toJson? : Expr → Option Json
  | .lit literal s => some (nodeJson literal.kindJson s)
  | .sym name s => some (nodeJson (obj [("Sym", str name)]) s)
  | .call func args s => do
    let func ← func.toJson?
    let args ← Expr.toJsonAll? args
    some (nodeJson (obj [("Call", obj [("func", func), ("args", arr args)])]) s)
  | .paren inner s => do
    let inner ← inner.toJson?
    some (nodeJson (obj [("Paren", inner)]) s)
  | .block stmts s => do
    let stmts ← Expr.toJsonAll? stmts
    some (nodeJson (obj [("Block", arr stmts)]) s)
  | .list items s => do
    let items ← Expr.toJsonAll? items
    some (nodeJson (obj [("List", arr items)]) s)
  | .record fields s => do
    let fields ← Expr.fieldsToJson? fields
    some (nodeJson (obj [("Record", arr fields)]) s)
  | .field target name s => do
    let target ← target.toJson?
    some (nodeJson (obj [("Field", obj [("target", target), ("name", str name)])]) s)
  | .lambda params body s => do
    let body ← body.toJson?
    some (nodeJson (obj [("Lambda", obj [("params", arr (params.map str)), ("body", body)])]) s)
  | .ifThen cond yes s => do
    let cond ← cond.toJson?
    let yes ← yes.toJson?
    some (nodeJson
      (obj [("If", obj [("cond", cond), ("then", yes), ("otherwise", .null)])]) s)
  | .ifElse cond yes no s => do
    let cond ← cond.toJson?
    let yes ← yes.toJson?
    let no ← no.toJson?
    some (nodeJson (obj [("If", obj [("cond", cond), ("then", yes), ("otherwise", no)])]) s)
  | .assign target value scope s => do
    let target ← target.toJson?
    let value ← value.toJson?
    some (nodeJson
      (obj [("Assign", obj [("target", target), ("value", value), ("scope", scope.toJson)])]) s)
  | .inline .. => none

/-- The JSON forms of some trees. -/
def Expr.toJsonAll? : List Expr → Option (List Json)
  | [] => some []
  | e :: rest => do
    let e ← e.toJson?
    let rest ← Expr.toJsonAll? rest
    some (e :: rest)

/-- The JSON forms of named trees, as pairs. -/
def Expr.fieldsToJson? : List (String × Expr) → Option (List Json)
  | [] => some []
  | (name, e) :: rest => do
    let e ← e.toJson?
    let rest ← Expr.fieldsToJson? rest
    some (arr [str name, e] :: rest)

end

/-! ### Reading -/

/-- A size or a position. -/
def Json.asNat? : Json → Option Nat
  | .int n => if 0 ≤ n ∧ n.toNat < 1 <<< 64 then some n.toNat else none
  | _ => none

/-- A string. -/
def Json.asString? : Json → Option String
  | .str s => some s
  | _ => none

/-- A number as a float. -/
def Json.asFloat? : Json → Option Float
  | .int n => some (if n < 0 then -(n.natAbs.toUInt64.toFloat) else n.natAbs.toUInt64.toFloat)
  | .float x => some x
  | _ => none

/-- A list of strings. -/
def Json.asStrings? : Json → Option (List String)
  | .arr items => items.mapM Json.asString?
  | _ => none

/-- A span. -/
def Span.ofJson? (json : Json) : Option Span := do
  let offset ← (← json.part? ["offset", "len"] "offset").asNat?
  let len ← (← json.part? ["offset", "len"] "len").asNat?
  some ⟨offset, len⟩

/-- A name without parts, alone or as the only member of an object. -/
def Json.bareName? : Json → Option String
  | .str name => some name
  | .obj [(name, .null)] => some name
  | _ => none

/-- A scope. -/
def AssignScope.ofJson? (json : Json) : Option AssignScope :=
  match json.bareName? with
  | some "Local" => some inner
  | some "Super" => some outer
  | _ => none

/-- The literal of a kind with this name and content. -/
def Literal.ofKind? (name : String) (content : Json) : Option Literal :=
  match name, content with
  | "Null", .null => some null
  | "Bool", .bool b => some (bool b)
  | "Int", .int n => (int64? n).map Literal.int
  | "Float", x => x.asFloat?.map float
  | "Str", .str s => some (str s)
  | _, _ => none

mutual

/-- The tree that a JSON value stands for. -/
def Expr.ofJson? (json : Json) : Option Expr :=
  match _kind : json.part? ["kind", "span"] "kind", json.part? ["kind", "span"] "span" with
  | some kind, some span => do
    let span ← Span.ofJson? span
    Expr.ofKind? kind span
  | _, _ => none
termination_by sizeOf json
decreasing_by exact Json.sizeOf_lt_of_part? _kind

/-- The node of a kind, with the given span. -/
def Expr.ofKind? (kind : Json) (s : Span) : Option Expr :=
  match kind with
  | .str "Null" => some (.lit .null s)
  | .obj [(name, content)] =>
    match name with
    | "Sym" => content.asString?.map fun name => .sym name s
    | "Call" =>
      match _func : content.part? ["func", "args"] "func",
          _args : content.part? ["func", "args"] "args" with
      | some func, some (.arr args) => do
        let func ← Expr.ofJson? func
        let args ← Expr.listOfJson? args
        some (.call func args s)
      | _, _ => none
    | "Paren" => do
      let inner ← Expr.ofJson? content
      some (.paren inner s)
    | "Block" =>
      match content with
      | .arr stmts => (Expr.listOfJson? stmts).map fun stmts => .block stmts s
      | _ => none
    | "List" =>
      match content with
      | .arr items => (Expr.listOfJson? items).map fun items => .list items s
      | _ => none
    | "Record" =>
      match content with
      | .arr fields => (Expr.fieldsOfJson? fields).map fun fields => .record fields s
      | _ => none
    | "Field" =>
      match _target : content.part? ["target", "name"] "target" with
      | some target => do
        let target ← Expr.ofJson? target
        let name ← (← content.part? ["target", "name"] "name").asString?
        some (.field target name s)
      | none => none
    | "Lambda" =>
      match _body : content.part? ["params", "body"] "body" with
      | some body => do
        let params ← (← content.part? ["params", "body"] "params").asStrings?
        let body ← Expr.ofJson? body
        some (.lambda params body s)
      | none => none
    | "If" =>
      match _cond : content.part? ["cond", "then", "otherwise"] "cond",
          _yes : content.part? ["cond", "then", "otherwise"] "then",
          _no : content.part? ["cond", "then", "otherwise"] "otherwise" with
      | some cond, some yes, some .null => do
        let cond ← Expr.ofJson? cond
        let yes ← Expr.ofJson? yes
        some (.ifThen cond yes s)
      | some cond, some yes, none => do
        let cond ← Expr.ofJson? cond
        let yes ← Expr.ofJson? yes
        some (.ifThen cond yes s)
      | some cond, some yes, some no => do
        let cond ← Expr.ofJson? cond
        let yes ← Expr.ofJson? yes
        let no ← Expr.ofJson? no
        some (.ifElse cond yes no s)
      | _, _, _ => none
    | "Assign" =>
      match _target : content.part? ["target", "value", "scope"] "target",
          _value : content.part? ["target", "value", "scope"] "value" with
      | some target, some value => do
        let target ← Expr.ofJson? target
        let value ← Expr.ofJson? value
        let scope ← AssignScope.ofJson? (← content.part? ["target", "value", "scope"] "scope")
        some (.assign target value scope s)
      | _, _ => none
    | _ => (Literal.ofKind? name content).map fun literal => .lit literal s
  | _ => none
termination_by sizeOf kind
decreasing_by
  all_goals first
    | exact Json.sizeOf_lt_only _ _
    | exact Json.sizeOf_items_lt_only _ _
    | exact Json.sizeOf_lt_only_of_part? _ (by assumption)
    | exact Json.sizeOf_items_lt_only_of_part? _ (by assumption)

/-- The trees that some JSON values stand for. -/
def Expr.listOfJson? (items : List Json) : Option (List Expr) :=
  match items with
  | [] => some []
  | item :: rest => do
    let e ← Expr.ofJson? item
    let rest ← Expr.listOfJson? rest
    some (e :: rest)
termination_by sizeOf items

/-- The named trees that some JSON pairs stand for. -/
def Expr.fieldsOfJson? (items : List Json) : Option (List (String × Expr)) :=
  match items with
  | [] => some []
  | .arr [.str name, value] :: rest => do
    let e ← Expr.ofJson? value
    let rest ← Expr.fieldsOfJson? rest
    some ((name, e) :: rest)
  | _ => none
termination_by sizeOf items

end

end PipeLang
