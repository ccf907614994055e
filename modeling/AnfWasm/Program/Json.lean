import AnfWasm.Json.Printer
import AnfWasm.Json.Reader
import AnfWasm.Program.Basic

/-!
# Programs as JSON

`Program.toJson` writes every field in order; only a missing source name or span is left out.
`Program.ofJson?` reads it back and also takes the shorter forms of `Json.record`.

The reader's first argument is the nesting allowance of `AnfWasm.Json.Record`.  `Program.ofText?`
reads a text under the usual allowance, and `Program.ofValue?` reads a value of any depth.
-/

namespace AnfWasm

/-- a field that is written only if there is a value -/
def Json.fieldIf {α : Type} (key : String) (write : α → Json) : Option α → List (String × Json)
  | none => []
  | some a => [(key, write a)]

namespace Ident

def toJson (x : Ident) : Json := .obj [("name", .str x.name), ("stamp", .ofNat x.stamp.toNat)]

def ofJson? : Nat → Json → Option Ident
  | _ + 1, j => do
    let [some name, some stamp] ← j.record ["name", "stamp"] | none
    return ⟨← name.str?, ← stamp.uint32?⟩
  | 0, _ => none

end Ident

namespace Constant

def toJson : Constant → Json
  | .int n => .obj [("Int", .int n.toInt)]
  | .bool b => .obj [("Bool", .bool b)]
  | .unit => .str "Unit"

def ofJson? : Nat → Json → Option Constant
  | _ + 1, .obj [("Int", j)] => .int <$> j.int32?
  | _ + 1, .obj [("Bool", j)] => .bool <$> j.bool?
  | n, j => if j.bare? n = some "Unit" then some .unit else none

end Constant

namespace Imm

def toJson : Imm → Json
  | .id x => .obj [("Id", x.toJson)]
  | .const c => .obj [("Const", c.toJson)]

def ofJson? : Nat → Json → Option Imm
  | n + 1, .obj [("Id", j)] => .id <$> Ident.ofJson? n j
  | n + 1, .obj [("Const", j)] => .const <$> Constant.ofJson? n j
  | _, _ => none

end Imm

namespace Prim1

def toJson : Prim1 → Json
  | .not => .str "Not"
  | .neg => .str "Neg"

def ofName? : String → Option Prim1
  | "Not" => some .not
  | "Neg" => some .neg
  | _ => none

def ofJson? (n : Nat) (j : Json) : Option Prim1 := j.bare? n >>= ofName?

end Prim1

namespace Prim2

def name : Prim2 → String
  | .add => "Add"
  | .sub => "Sub"
  | .mul => "Mul"
  | .div => "Div"
  | .eq => "Eq"
  | .ne => "Ne"
  | .lt => "Lt"
  | .le => "Le"
  | .gt => "Gt"
  | .ge => "Ge"
  | .and => "And"
  | .or => "Or"

def toJson (op : Prim2) : Json := .str op.name

def ofName? : String → Option Prim2
  | "Add" => some .add
  | "Sub" => some .sub
  | "Mul" => some .mul
  | "Div" => some .div
  | "Eq" => some .eq
  | "Ne" => some .ne
  | "Lt" => some .lt
  | "Le" => some .le
  | "Gt" => some .gt
  | "Ge" => some .ge
  | "And" => some .and
  | "Or" => some .or
  | _ => none

def ofJson? (n : Nat) (j : Json) : Option Prim2 := j.bare? n >>= ofName?

end Prim2

namespace LetKind

def toJson : LetKind → Json
  | .sequential => .str "Nonrec"
  | .recursive => .str "Rec"

def ofName? : String → Option LetKind
  | "Nonrec" => some .sequential
  | "Rec" => some .recursive
  | _ => none

def ofJson? (n : Nat) (j : Json) : Option LetKind := j.bare? n >>= ofName?

end LetKind

/-! ### computations and expressions -/

mutual

def Comp.toJson : Comp → Json
  | .imm a => .obj [("Imm", a.toJson)]
  | .prim1 op a => .obj [("Prim1", .arr [op.toJson, a.toJson])]
  | .prim2 op a b => .obj [("Prim2", .arr [op.toJson, a.toJson, b.toJson])]
  | .adt typeTag variant args =>
    .obj [("Adt", .obj [("type_tag", .ofNat typeTag.toNat), ("variant", .ofNat variant.toNat),
      ("args", .arr (args.map Imm.toJson))])]
  | .tuple args => .obj [("Tuple", .arr (args.map Imm.toJson))]
  | .tupleGet index a => .obj [("TupleGet", .arr [.ofNat index.toNat, a.toJson])]
  | .boxNew a => .obj [("BoxNew", a.toJson)]
  | .unbox a => .obj [("Unbox", a.toJson)]
  | .boxSet cell value => .obj [("BoxSet", .arr [cell.toJson, value.toJson])]
  | .call f args => .obj [("Call", .arr [f.toJson, .arr (args.map Imm.toJson)])]
  | .callForeign f args => .obj [("CallForeign", .arr [f.toJson, .arr (args.map Imm.toJson)])]
  | .branch cond thenArm elseArm =>
    .obj [("If", .arr [cond.toJson, thenArm.toJson, elseArm.toJson])]
  | .fail code => .obj [("Fail", .ofNat code.toNat)]

def Binding.toJson : Binding → Json
  | ⟨id, comp, span⟩ =>
    .obj ([("id", id.toJson), ("comp", comp.toJson)] ++ Json.fieldIf "span" Span.toJson span)

def Binding.toJsons : List Binding → List Json
  | [] => []
  | b :: bs => b.toJson :: Binding.toJsons bs

def Expr.toJson : Expr → Json
  | .letIn kind bindings body =>
    .obj [("Let", .obj [("kind", kind.toJson), ("bindings", .arr (Binding.toJsons bindings)),
      ("body", body.toJson)])]
  | .seq comp rest => .obj [("Seq", .arr [comp.toJson, rest.toJson])]
  | .comp comp => .obj [("Comp", comp.toJson)]

end

mutual

def Comp.ofJson? : Nat → Json → Option Comp
  | n + 1, .obj [(tag, j)] =>
    match tag, n, j with
    | "Imm", n, j => .imm <$> Imm.ofJson? n j
    | "Prim1", n + 1, .arr [op, a] => return .prim1 (← Prim1.ofJson? n op) (← Imm.ofJson? n a)
    | "Prim2", n + 1, .arr [op, a, b] =>
      return .prim2 (← Prim2.ofJson? n op) (← Imm.ofJson? n a) (← Imm.ofJson? n b)
    | "Adt", n + 1, j => do
      let [some typeTag, some variant, some args] ← j.record ["type_tag", "variant", "args"] | none
      return .adt (← typeTag.uint32?) (← variant.uint32?) (← args.list Imm.ofJson? n)
    | "Tuple", n, j => .tuple <$> j.list Imm.ofJson? n
    | "TupleGet", n + 1, .arr [index, a] => return .tupleGet (← index.uint32?) (← Imm.ofJson? n a)
    | "BoxNew", n, j => .boxNew <$> Imm.ofJson? n j
    | "Unbox", n, j => .unbox <$> Imm.ofJson? n j
    | "BoxSet", n + 1, .arr [cell, value] =>
      return .boxSet (← Imm.ofJson? n cell) (← Imm.ofJson? n value)
    | "Call", n + 1, .arr [f, args] =>
      return .call (← Ident.ofJson? n f) (← args.list Imm.ofJson? n)
    | "CallForeign", n + 1, .arr [f, args] =>
      return .callForeign (← Ident.ofJson? n f) (← args.list Imm.ofJson? n)
    | "If", n + 1, .arr [cond, thenArm, elseArm] =>
      return .branch (← Imm.ofJson? n cond) (← Expr.ofJson? n thenArm) (← Expr.ofJson? n elseArm)
    | "Fail", _, j => .fail <$> j.uint32?
    | _, _, _ => none
  | _, _ => none

def Binding.ofJson? : Nat → Json → Option Binding
  | n + 1, j => do
    let [some id, some comp, span] ← j.record ["id", "comp", "span"] | none
    return ⟨← Ident.ofJson? n id, ← Comp.ofJson? n comp,
      ← Json.orElse none (Json.nullable (Span.ofJson? n)) span⟩
  | 0, _ => none

def Expr.ofJson? : Nat → Json → Option Expr
  | n + 1, .obj [(tag, j)] =>
    match tag, n, j with
    | "Let", n + 2, j => do
      let [kind, some bindings, some body] ← j.record ["kind", "bindings", "body"] | none
      let kind ← Json.orElse .sequential (LetKind.ofJson? (n + 1)) kind
      let items ← bindings.items?
      return .letIn kind (← items.mapM (Binding.ofJson? n)) (← Expr.ofJson? (n + 1) body)
    | "Seq", n + 1, .arr [comp, rest] => return .seq (← Comp.ofJson? n comp) (← Expr.ofJson? n rest)
    | "Comp", n, j => .comp <$> Comp.ofJson? n j
    | _, _, _ => none
  | _, _ => none

end

/-! ### programs -/

namespace Import

def toJson (i : Import) : Json :=
  .obj [("id", i.id.toJson), ("module", .str i.module), ("name", .str i.name),
    ("arity", .ofNat i.arity.toNat)]

def ofJson? : Nat → Json → Option Import
  | n + 1, j => do
    let [some id, some module, some name, some arity] ←
      j.record ["id", "module", "name", "arity"] | none
    return ⟨← Ident.ofJson? n id, ← module.str?, ← name.str?, ← arity.uint32?⟩
  | 0, _ => none

end Import

namespace Func

def toJson (f : Func) : Json :=
  .obj ([("id", f.id.toJson), ("params", .arr (f.params.map Ident.toJson)),
    ("body", f.body.toJson), ("export", .bool f.exported)]
    ++ Json.fieldIf "span" Span.toJson f.span)

def ofJson? : Nat → Json → Option Func
  | n + 1, j => do
    let [some id, some params, some body, exported, span] ←
      j.record ["id", "params", "body", "export", "span"] | none
    return ⟨← Ident.ofJson? n id, ← params.list Ident.ofJson? n, ← Expr.ofJson? n body,
      ← Json.orElse false Json.bool? exported,
      ← Json.orElse none (Json.nullable (Span.ofJson? n)) span⟩
  | 0, _ => none

end Func

namespace Program

def toJson (p : Program) : Json :=
  .obj (Json.fieldIf "source" .str p.source
    ++ [("imports", .arr (p.imports.map Import.toJson)),
      ("functions", .arr (p.functions.map Func.toJson)), ("body", p.body.toJson)])

def ofJson? : Nat → Json → Option Program
  | n + 1, j => do
    let [source, imports, functions, some body] ←
      j.record ["source", "imports", "functions", "body"] | none
    return ⟨← Json.orElse none (Json.nullable Json.str?) source,
      ← Json.orElse [] (Json.list Import.ofJson? n) imports,
      ← Json.orElse [] (Json.list Func.ofJson? n) functions,
      ← Expr.ofJson? n body⟩
  | 0, _ => none

/-- no deeper nesting than the value itself has can be asked for -/
def ofValue? (j : Json) : Option Program := ofJson? j.depth j

def ofText? (text : String) : Option Program := Json.parse? text >>= ofJson? Json.textAllowance

def toText (p : Program) : String := p.toJson.compact

end Program

end AnfWasm
