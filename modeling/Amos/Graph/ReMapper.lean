import Amos.Graph.Expr

/-!
# `ExprReMapper` and `generate_tag_from_body`

`ExprReMapper` (`abstract_graph.h`, `abstract_graph.cc` lines 8–115) is a `tir::ExprMutator` that
renames the variables, size variables and Halide tensors of an expression in order of first
occurrence: `v0, v1, …` from one counter shared by variables and size variables, `T0, T1, …` for
tensors. It keys `var_map` and `size_var_map` by the variable object and `call_map` by the
function object. Its `Reduce` visitor rebuilds each axis from the axis's **original** domain.

`generate_tag_from_body` (lines 118–193) prints a body through the remapper:

* an empty body gives the empty tag;
* a body whose first expression is a `Reduce` must have only that expression, and gives
  `R[shape] [extents] { combiner } { sources }`, from one remapper;
* any other body gives `S[shape] [ ] { } { e₀; e₁; … }`, each expression remapped by a fresh
  remapper and checked not to be a `Reduce`.

The remapper is a state-passing function here, `visit`, with the state record `ExprReMapper`; a
failed `CHECK` is an `Except` error carrying its message.

## Main definitions

* `ExprReMapper.visitVar`, `ExprReMapper.visitSizeVar`, `visit`
* `generateTagFromBody`
-/

namespace Amos

namespace Graph

/-- What an `ExprReMapper` holds. -/
structure ExprReMapper where
  varMap : List (Var × Var)
  sizeVarMap : List (Var × Var)
  callMap : List (ℕ × String)
  countVar : ℕ
  countCall : ℕ

namespace ExprReMapper

/-- `ExprReMapper()`: empty maps, both counters at `0`. -/
def init : ExprReMapper := ⟨[], [], [], 0, 0⟩

/-- `get_new_var_name()`. -/
def getNewVarName (m : ExprReMapper) : String × ExprReMapper :=
  ("v" ++ toString m.countVar, { m with countVar := m.countVar + 1 })

/-- `get_new_tensor_name()`. -/
def getNewTensorName (m : ExprReMapper) : String × ExprReMapper :=
  ("T" ++ toString m.countCall, { m with countCall := m.countCall + 1 })

/-- `var_map` or `size_var_map`. -/
def mapOf (m : ExprReMapper) : VarKind → List (Var × Var)
  | .var => m.varMap
  | .sizeVar => m.sizeVarMap

/-- `m` with `var_map` or `size_var_map` replaced by `l`. -/
def setMapOf (m : ExprReMapper) : VarKind → List (Var × Var) → ExprReMapper
  | .var, l => { m with varMap := l }
  | .sizeVar, l => { m with sizeVarMap := l }

/-- The body of the `VarNode` and `SizeVarNode` visitors, on the map of their kind: the variable
the map holds for `v`, or a fresh one named by `get_new_var_name()`, recorded. The counter is
shared by both kinds. The fresh object's identity, which nothing reads, is the number its name
carries. -/
def visitVarOf (m : ExprReMapper) (kind : VarKind) (v : Var) : Var × ExprReMapper :=
  match (m.mapOf kind).lookup v with
  | some v' => (v', m)
  | none =>
    let (name, m') := m.getNewVarName
    let ret : Var := ⟨m.countVar, name⟩
    (ret, m'.setMapOf kind ((v, ret) :: m'.mapOf kind))

/-- `VisitExpr_(const VarNode*)`. -/
def visitVar (m : ExprReMapper) (v : Var) : Var × ExprReMapper := m.visitVarOf .var v

/-- `VisitExpr_(const SizeVarNode*)`. -/
def visitSizeVar (m : ExprReMapper) (v : Var) : Var × ExprReMapper := m.visitVarOf .sizeVar v

/-- One turn of the `lhs` and `rhs` loops of the `Reduce` visitor: `var_map`'s entry if there is
one, otherwise visit the variable and take the entry the visit made (`var_map[l.get()]`). -/
def visitVarRef (m : ExprReMapper) (l : Var) : Var × ExprReMapper :=
  match m.varMap.lookup l with
  | some l' => (l', m)
  | none =>
    let m := (m.visitVar l).2
    ((m.varMap.lookup l).getD default, m)

/-- The `lhs` or `rhs` loop. -/
def visitVarRefs (m : ExprReMapper) : List Var → List Var × ExprReMapper
  | [] => ([], m)
  | l :: ls =>
    let l' := m.visitVarRef l
    let ls' := l'.2.visitVarRefs ls
    (l'.1 :: ls'.1, ls'.2)

/-- The axis loop of the `Reduce` visitor: visit the axis variable, then rebuild the axis from
its original domain and `var_map`'s entry. -/
def visitAxis (m : ExprReMapper) : List IterVar → List IterVar × ExprReMapper
  | [] => ([], m)
  | .mk v min extent :: axis =>
    let m := (m.visitVar v).2
    let iv := IterVar.mk ((m.varMap.lookup v).getD default) min extent
    let axis' := m.visitAxis axis
    (iv :: axis'.1, axis'.2)

/-- The name a call gets in the `Call` visitor: for a Halide call, `call_map`'s entry for its
function, or a fresh `get_new_tensor_name()`, recorded; any other call keeps its name. -/
def visitCallName (m : ExprReMapper) (name : String) (callType : CallType) (func : ℕ) :
    String × ExprReMapper :=
  if callType = .halide then
    match m.callMap.lookup func with
    | some name' => (name', m)
    | none =>
      let newName := m.getNewTensorName
      (newName.1, { newName.2 with callMap := (func, newName.1) :: newName.2.callMap })
  else (name, m)

@[simp] theorem visitCallName_of_ne (m : ExprReMapper) (name : String) {callType : CallType}
    (h : callType ≠ .halide) (func : ℕ) : m.visitCallName name callType func = (name, m) :=
  if_neg h

/-- The loop body of the `Reduce` visitor returns what visiting the variable returns. -/
theorem visitVarRef_eq (m : ExprReMapper) (l : Var) : m.visitVarRef l = m.visitVar l := by
  unfold visitVarRef visitVar visitVarOf
  cases h : m.varMap.lookup l <;> simp [h, mapOf, setMapOf, getNewVarName]

end ExprReMapper

open ExprReMapper

mutual

/-- `ExprReMapper::VisitExpr`: the four overridden visitors, and `ExprMutator`'s for the binary
nodes, which visits both operands and rebuilds the node. A call's arguments are visited before
its name is chosen. -/
def visit (m : ExprReMapper) : PrimExpr → PrimExpr × ExprReMapper
  | .intImm value => (.intImm value, m)
  | .var v => let v' := m.visitVar v; (.var v'.1, v'.2)
  | .sizeVar v => let v' := m.visitSizeVar v; (.sizeVar v'.1, v'.2)
  | .call name args callType func valueIndex =>
    let newArgs := visitEach m args
    let newName := newArgs.2.visitCallName name callType func
    (.call newName.1 newArgs.1 callType func valueIndex, newName.2)
  | .binary op a b =>
    let a' := visit m a
    let b' := visit a'.2 b
    (.binary op a'.1 b'.1, b'.2)
  | .reduce lhs rhs result identityElement source axis condition valueIndex =>
    let lhs' := m.visitVarRefs lhs
    let rhs' := lhs'.2.visitVarRefs rhs
    let results := visitEach rhs'.2 result
    let identities := visitEach results.2 identityElement
    let source' := visitEach identities.2 source
    let axis' := source'.2.visitAxis axis
    let condition' := visit axis'.2 condition
    (.reduce lhs'.1 rhs'.1 results.1 identities.1 source'.1 axis'.1 condition'.1 valueIndex,
      condition'.2)

/-- Visit each expression of a list, in order. -/
def visitEach (m : ExprReMapper) : List PrimExpr → List PrimExpr × ExprReMapper
  | [] => ([], m)
  | e :: es =>
    let e' := visit m e
    let es' := visitEach e'.2 es
    (e'.1 :: es'.1, es'.2)

end

/-! ### The tag -/

/-- `as<ReduceNode>() != nullptr`. -/
def PrimExpr.isReduce : PrimExpr → Bool
  | .reduce .. => true
  | _ => false

/-- An axis's `dom->extent`. -/
def IterVar.extent : IterVar → PrimExpr
  | .mk _ _ extent => extent

/-- The shape, printed and separated by `", "`. -/
def showShape (shape : List PrimExpr) : String := ", ".intercalate (printEach shape)

/-- The tag of a body that is one `Reduce`, from the remapped `Reduce`. -/
def reduceTag (shape : List PrimExpr) : PrimExpr → Except String String
  | .reduce lhs rhs result identityElement source axis _ _ =>
    .ok ("R[" ++ showShape shape ++ "] [" ++ ", ".intercalate (printEach (axis.map IterVar.extent)) ++
      "] \x7b " ++ showCombiner lhs rhs (printEach result) (printEach identityElement) ++
      " \x7d \x7b " ++ "; ".intercalate (printEach source) ++ " \x7d")
  | _ => .error ""

/-- The loop over a body with no leading `Reduce`: check each expression, remap it with a fresh
`ExprReMapper`, and print it. -/
def printBody : List PrimExpr → Except String (List String)
  | [] => .ok []
  | b :: body =>
    if b.isReduce then .error "Should only contain non-reduce expr."
    else (printBody body).map ((visit .init b).1.print :: ·)

/-- `generate_tag_from_body(shape, body)`. -/
def generateTagFromBody (shape body : List PrimExpr) : Except String String :=
  match body with
  | [] => .ok ""
  | b :: _ =>
    if b.isReduce then
      if body.length = 1 then reduceTag shape (visit .init b).1
      else .error "Only support reduce with one body."
    else
      (printBody body).map fun items =>
        "S[" ++ showShape shape ++ "] [ ] \x7b \x7d \x7b " ++ "; ".intercalate items ++ " \x7d"

end Graph

end Amos
