import Mathlib.Data.List.Basic

/-!
# Tensor expressions, as the tag generator sees them

`generate_tag_from_body` (`abstract_graph.cc`) reads the body of a compute operation, an array of
TVM `PrimExpr`s, through an `ExprReMapper` and TVM's printer. This file models the nodes of
`PrimExpr` that the remapper rewrites or rebuilds: integer constants, variables and size
variables, calls, the binary arithmetic and comparison nodes, and `Reduce`, whose combiner and
iteration axes hold further expressions.

A variable is an object: two distinct `Var` objects may share a `name_hint`, and the remapper keys
its maps by the object. `Var` here is the object's identity together with its name. A Halide call
names the tensor function it reads by the function object `func`, and carries the tensor's name.

## Scope

The printer is TVM's `ReprPrinter` dispatch, which is not part of this repository; `print` renders
the nodes modelled here as it does. Data types are left out: the remapper copies every `dtype`, a
renaming keeps them, and an `int32` constant prints as its value. The other nodes (`Let`,
`Select`, `Cast`, `Not`, loads, vectors, float and string constants), which the remapper leaves
to `ExprMutator`'s default visitors, are left out, as are an axis's `iter_type` and `thread_tag`,
which the remapper copies and a reduction axis leaves empty.

## Main definitions

* `PrimExpr`, `IterVar`, and `PrimExpr.print`
* `Renaming`, `PrimExpr.rename` — a renaming of the variable objects, size-variable objects and
  Halide functions of an expression, with arbitrary new names
* `PrimExpr.objects`, `PrimExpr.domains` — the objects an expression refers to, and the bounds of
  its reduction axes
-/

namespace Amos

namespace Graph

/-- A `tir::Var` or `tir::SizeVar` object: its identity and its `name_hint`. -/
structure Var where
  id : ℕ
  nameHint : String
  deriving DecidableEq, Inhabited

/-- `CallNode::CallType`. -/
inductive CallType
  /-- `Extern`: a call to an external C function. -/
  | externC
  | externCPlusPlus
  | pureExtern
  | halide
  | intrinsic
  | pureIntrinsic
  deriving DecidableEq

/-- The binary nodes: arithmetic, comparison and logic. -/
inductive BinOp
  | add | sub | mul | div | mod | floorDiv | floorMod | min | max
  | eq | ne | lt | le | gt | ge | and | or
  deriving DecidableEq

mutual

/-- A `PrimExpr`. -/
inductive PrimExpr
  /-- `IntImm`. -/
  | intImm (value : ℤ)
  /-- A `VarNode`. -/
  | var (v : Var)
  /-- A `SizeVarNode`. -/
  | sizeVar (v : Var)
  /-- `CallNode`: `func` is the function object a Halide call reads. -/
  | call (name : String) (args : List PrimExpr) (callType : CallType) (func : ℕ) (valueIndex : ℕ)
  | binary (op : BinOp) (a b : PrimExpr)
  /-- `ReduceNode`: the combiner's `lhs`, `rhs`, `result` and `identity_element`, then `source`,
  `axis`, `condition` and `value_index`. -/
  | reduce (lhs rhs : List Var) (result identityElement source : List PrimExpr) (axis : List IterVar)
      (condition : PrimExpr) (valueIndex : ℕ)

/-- An `IterVar`: its variable and its domain `Range(min, extent)`. -/
inductive IterVar
  | mk (var : Var) (min extent : PrimExpr)

end

/-! ### Printing -/

/-- How TVM prints a binary node around its printed operands. -/
def BinOp.show : BinOp → String → String → String
  | .add, a, b => "(" ++ a ++ " + " ++ b ++ ")"
  | .sub, a, b => "(" ++ a ++ " - " ++ b ++ ")"
  | .mul, a, b => "(" ++ a ++ "*" ++ b ++ ")"
  | .div, a, b => "(" ++ a ++ "/" ++ b ++ ")"
  | .mod, a, b => "(" ++ a ++ " % " ++ b ++ ")"
  | .floorDiv, a, b => "floordiv(" ++ a ++ ", " ++ b ++ ")"
  | .floorMod, a, b => "floormod(" ++ a ++ ", " ++ b ++ ")"
  | .min, a, b => "min(" ++ a ++ ", " ++ b ++ ")"
  | .max, a, b => "max(" ++ a ++ ", " ++ b ++ ")"
  | .eq, a, b => "(" ++ a ++ " == " ++ b ++ ")"
  | .ne, a, b => "(" ++ a ++ " != " ++ b ++ ")"
  | .lt, a, b => "(" ++ a ++ " < " ++ b ++ ")"
  | .le, a, b => "(" ++ a ++ " <= " ++ b ++ ")"
  | .gt, a, b => "(" ++ a ++ " > " ++ b ++ ")"
  | .ge, a, b => "(" ++ a ++ " >= " ++ b ++ ")"
  | .and, a, b => "(" ++ a ++ " && " ++ b ++ ")"
  | .or, a, b => "(" ++ a ++ " || " ++ b ++ ")"

/-- An `Array` as TVM prints it. -/
def showArray (items : List String) : String := "[" ++ ", ".intercalate items ++ "]"

/-- An `IterVar` as TVM prints it, from its variable's name and its printed bounds. -/
def showIterVar (name min extent : String) : String :=
  "iter_var(" ++ (if name.isEmpty then "" else name ++ ", ") ++
    "range(min=" ++ min ++ ", ext=" ++ extent ++ "))"

/-- A `CommReducer` as TVM prints it, from its printed results and identities. -/
def showCombiner (lhs rhs : List Var) (result identityElement : List String) : String :=
  "comm_reducer(result=" ++ showArray result ++ ", lhs=" ++ showArray (lhs.map (·.nameHint)) ++
    ", rhs=" ++ showArray (rhs.map (·.nameHint)) ++ ", identity_element=" ++
    showArray identityElement ++ ")"

mutual

/-- `operator<<` on a `PrimExpr`. -/
def PrimExpr.print : PrimExpr → String
  | .intImm value => toString value
  | .var v => v.nameHint
  | .sizeVar v => "\x7b" ++ v.nameHint ++ "|" ++ v.nameHint ++ ">=0\x7d"
  | .call name args _ _ _ => name ++ "(" ++ ", ".intercalate (printEach args) ++ ")"
  | .binary op a b => op.show a.print b.print
  | .reduce lhs rhs result identityElement source axis condition valueIndex =>
    "reduce(combiner=" ++ showCombiner lhs rhs (printEach result) (printEach identityElement) ++
      ", source=" ++ showArray (printEach source) ++ ", axis=" ++ showArray (printAxis axis) ++
      ", where=" ++ condition.print ++ ", value_index=" ++ toString valueIndex ++ ")"

/-- Each expression of a list, printed. -/
def printEach : List PrimExpr → List String
  | [] => []
  | e :: es => e.print :: printEach es

/-- Each axis of a list, printed. -/
def printAxis : List IterVar → List String
  | [] => []
  | .mk v min extent :: axis => showIterVar v.nameHint min.print extent.print :: printAxis axis

end

theorem printEach_eq_map (es : List PrimExpr) : printEach es = es.map PrimExpr.print := by
  induction es with
  | nil => rfl
  | cons e es ih => rw [printEach, ih, List.map_cons]

/-! ### Renamings -/

/-- The two kinds of variable object, `Var` and `SizeVar`. -/
inductive VarKind
  | var
  | sizeVar
  deriving DecidableEq

/-- A renaming of the objects an expression refers to: each variable object and each
size-variable object goes to a new object of its kind (`varOf`), each Halide function to a new
function, and a Halide call to a renamed function gets a new name (`funcName func name`). -/
structure Renaming where
  varOf : VarKind → Var → Var
  func : ℕ → ℕ
  funcName : ℕ → String → String

/-- An object an expression refers to. -/
inductive Obj
  | var (kind : VarKind) (v : Var)
  | func (f : ℕ)
  deriving DecidableEq

/-- What a renaming does to an object. -/
def Renaming.obj (σ : Renaming) : Obj → Obj
  | .var kind v => .var kind (σ.varOf kind v)
  | .func f => .func (σ.func f)

/-- The renaming tells apart the objects of `os`. -/
def Renaming.InjOn (σ : Renaming) (os : List Obj) : Prop :=
  ∀ a ∈ os, ∀ b ∈ os, σ.obj a = σ.obj b → a = b

instance (σ : Renaming) (os : List Obj) : Decidable (σ.InjOn os) :=
  inferInstanceAs (Decidable (∀ a ∈ os, ∀ b ∈ os, σ.obj a = σ.obj b → a = b))

mutual

/-- Apply a renaming to every object of an expression, axis domains included. -/
def PrimExpr.rename (σ : Renaming) : PrimExpr → PrimExpr
  | .intImm value => .intImm value
  | .var v => .var (σ.varOf .var v)
  | .sizeVar v => .sizeVar (σ.varOf .sizeVar v)
  | .call name args callType func valueIndex =>
    if callType = .halide then
      .call (σ.funcName func name) (renameEach σ args) callType (σ.func func) valueIndex
    else .call name (renameEach σ args) callType func valueIndex
  | .binary op a b => .binary op (a.rename σ) (b.rename σ)
  | .reduce lhs rhs result identityElement source axis condition valueIndex =>
    .reduce (lhs.map (σ.varOf .var)) (rhs.map (σ.varOf .var)) (renameEach σ result) (renameEach σ identityElement)
      (renameEach σ source) (renameAxis σ axis) (condition.rename σ) valueIndex

/-- `PrimExpr.rename` on each expression of a list. -/
def renameEach (σ : Renaming) : List PrimExpr → List PrimExpr
  | [] => []
  | e :: es => e.rename σ :: renameEach σ es

/-- `PrimExpr.rename` on each axis of a list: its variable and its bounds. -/
def renameAxis (σ : Renaming) : List IterVar → List IterVar
  | [] => []
  | .mk v min extent :: axis =>
    .mk (σ.varOf .var v) (min.rename σ) (extent.rename σ) :: renameAxis σ axis

end

theorem renameEach_eq_map (σ : Renaming) (es : List PrimExpr) :
    renameEach σ es = es.map (PrimExpr.rename σ) := by
  induction es with
  | nil => rfl
  | cons e es ih => rw [renameEach, ih, List.map_cons]

mutual

/-- Every object an expression refers to, in axis domains too. -/
def PrimExpr.objects : PrimExpr → List Obj
  | .intImm _ => []
  | .var v => [.var .var v]
  | .sizeVar v => [.var .sizeVar v]
  | .call _ args callType func _ =>
    (if callType = .halide then [.func func] else []) ++ objectsEach args
  | .binary _ a b => a.objects ++ b.objects
  | .reduce lhs rhs result identityElement source axis condition _ =>
    lhs.map (.var .var) ++ rhs.map (.var .var) ++ objectsEach result ++ objectsEach identityElement ++
      objectsEach source ++ objectsAxis axis ++ condition.objects

/-- The objects of a list of expressions. -/
def objectsEach : List PrimExpr → List Obj
  | [] => []
  | e :: es => e.objects ++ objectsEach es

/-- The objects of a list of axes. -/
def objectsAxis : List IterVar → List Obj
  | [] => []
  | .mk v min extent :: axis => .var .var v :: (min.objects ++ extent.objects ++ objectsAxis axis)

end

mutual

/-- The bounds, `min` and `extent`, of every reduction axis of an expression. -/
def PrimExpr.domains : PrimExpr → List PrimExpr
  | .intImm _ | .var _ | .sizeVar _ => []
  | .call _ args _ _ _ => domainsEach args
  | .binary _ a b => a.domains ++ b.domains
  | .reduce _ _ result identityElement source axis condition _ =>
    domainsEach result ++ domainsEach identityElement ++ domainsEach source ++ domainsAxis axis ++
      condition.domains

/-- The axis bounds of a list of expressions. -/
def domainsEach : List PrimExpr → List PrimExpr
  | [] => []
  | e :: es => e.domains ++ domainsEach es

/-- The bounds of a list of axes. -/
def domainsAxis : List IterVar → List PrimExpr
  | [] => []
  | .mk _ min extent :: axis => min :: extent :: domainsAxis axis

end

end Graph

end Amos
