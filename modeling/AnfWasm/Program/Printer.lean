import AnfWasm.Program.Basic

/-!
# Programs as text

The layout that people read: two blanks per level, one binding per line.
-/

namespace AnfWasm

def Ident.text (x : Ident) : String := x.name ++ "/" ++ x.stamp.toNat.repr

def Constant.text : Constant → String
  | .int n => n.toInt.repr
  | .bool true => "true"
  | .bool false => "false"
  | .unit => "()"

def Imm.text : Imm → String
  | .id x => x.text
  | .const c => c.text

def Prim1.sign : Prim1 → String
  | .not => "!"
  | .neg => "-"

def Prim2.sign : Prim2 → String
  | .add => "+"
  | .sub => "-"
  | .mul => "*"
  | .div => "/"
  | .eq => "=="
  | .ne => "!="
  | .lt => "<"
  | .le => "<="
  | .gt => ">"
  | .ge => ">="
  | .and => "&&"
  | .or => "||"

def LetKind.keyword : LetKind → String
  | .sequential => "let"
  | .recursive => "let rec"

namespace Layout

def spaces (n : Nat) : String := String.ofList (List.replicate n ' ')

/-- a line break, then the start of a line at that level -/
def newline (indent : Nat) : String := "\n" ++ spaces (2 * indent)

def parens (items : List String) : String := "(" ++ ", ".intercalate items ++ ")"

def args (values : List Imm) : String := parens (values.map Imm.text)

end Layout

open Layout

mutual

def Comp.layout (indent : Nat) : Comp → String
  | .imm a => a.text
  | .prim1 op a => op.sign ++ a.text
  | .prim2 op a b => a.text ++ " " ++ op.sign ++ " " ++ b.text
  | .adt typeTag variant values =>
    "adt[" ++ typeTag.toNat.repr ++ "." ++ variant.toNat.repr ++ "]" ++ args values
  | .tuple values => "tuple" ++ args values
  | .tupleGet index a => a.text ++ "." ++ index.toNat.repr
  | .boxNew a => "box(" ++ a.text ++ ")"
  | .unbox a => "unbox(" ++ a.text ++ ")"
  | .boxSet cell value => cell.text ++ " := " ++ value.text
  | .call f values => f.text ++ args values
  | .callForeign f values => "foreign " ++ f.text ++ args values
  | .branch cond thenArm elseArm =>
    "if " ++ cond.text ++ " then"
      ++ newline (indent + 1) ++ thenArm.layout (indent + 1)
      ++ newline indent ++ "else"
      ++ newline (indent + 1) ++ elseArm.layout (indent + 1)
      ++ newline indent ++ "end"
  | .fail code => "fail " ++ code.toNat.repr

/-- the bindings of a let; `lead` stands before the first one -/
def Binding.layouts (indent : Nat) (lead : String) : List Binding → String
  | [] => ""
  | ⟨id, comp, _⟩ :: bs =>
    lead ++ " " ++ id.text ++ " = " ++ comp.layout (indent + 1)
      ++ Binding.layouts indent (newline indent ++ "and") bs

def Expr.layout (indent : Nat) : Expr → String
  | .letIn kind bindings body =>
    Binding.layouts indent kind.keyword bindings ++ " in" ++ newline indent ++ body.layout indent
  | .seq comp rest => comp.layout indent ++ ";" ++ newline indent ++ rest.layout indent
  | .comp comp => comp.layout indent

end

def Comp.text (c : Comp) : String := c.layout 0

def Expr.text (e : Expr) : String := e.layout 0

def Import.text (i : Import) : String :=
  "import " ++ i.id.text ++ " = \"" ++ i.module ++ "\".\"" ++ i.name ++ "\" / "
    ++ i.arity.toNat.repr ++ "\n"

def Func.text (f : Func) : String :=
  (if f.exported then "export " else "") ++ "fn " ++ f.id.text
    ++ parens (f.params.map Ident.text) ++ " =" ++ newline 1 ++ f.body.layout 1 ++ "\n"

def Program.text (p : Program) : String :=
  String.join (p.imports.map Import.text) ++ String.join (p.functions.map Func.text)
    ++ p.body.text ++ "\n"

end AnfWasm
