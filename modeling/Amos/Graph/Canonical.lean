import Amos.Graph.ReMapper

/-!
# The remapper's output is a canonical form

`ExprReMapper` renames the variables, size variables and Halide tensors of an expression in order
of first occurrence. Its output is a fixed point up to the identity of variable objects: a fresh
remapper run on it gives back the same expression over new variables of the same names
(`visit_init_idem_forgetIds`). The tag is therefore unchanged when each expression of a body is
first put in this form (`generateTagFromBody_canonical`).

A fresh variable of the source is a new `Var` object; here it is numbered by the remapper's
counter (`visitVarOf`), so the two passes' fresh variables happen to coincide. Only what survives
forgetting that numbering is stated as a property of the remapper.

The second pass is simulated by the first (`visit_canonical`). Where the first pass holds
`x ↦ v`, the second holds `v ↦ v` (`ExprReMapper.canonical`); `call_map` and both counters are
the same in the two passes, since a remapped call keeps its function object. A variable the first
pass sees for the first time gets the next name, and the second pass, meeting that name, must not
take it for one it has seen: every name handed out is numbered below the counter
(`ExprReMapper.Fresh`), and the new one is numbered at it.

## Main results

* `visit_canonical` — the simulation, over every expression
* `visit_init_idem_forgetIds`
* `generateTagFromBody_canonical`
-/

namespace Amos

namespace Graph

namespace ExprReMapper

/-- The maps a second pass holds where the first holds `m`: every variable handed out maps to
itself; `call_map` and the counters are the first pass's. -/
def canonical (m : ExprReMapper) : ExprReMapper :=
  { m with
    varMap := m.varMap.map fun p => (p.2, p.2)
    sizeVarMap := m.sizeVarMap.map fun p => (p.2, p.2) }

/-- Every variable the remapper has handed out is numbered below its counter. -/
def Fresh (m : ExprReMapper) : Prop :=
  ∀ kind, ∀ p ∈ m.mapOf kind, p.2.id < m.countVar

@[simp] theorem canonical_init : init.canonical = init := rfl

theorem fresh_init : init.Fresh := fun kind => by cases kind <;> exact nofun

theorem mapOf_canonical (m : ExprReMapper) (kind : VarKind) :
    m.canonical.mapOf kind = (m.mapOf kind).map fun p => (p.2, p.2) := by
  cases kind <;> rfl

/-- Looking up in a map that sends each of its values to itself. -/
theorem lookup_diag (l : List (Var × Var)) (v : Var) :
    (l.map fun p => (p.2, p.2)).lookup v = if v ∈ l.map Prod.snd then some v else none := by
  induction l with
  | nil => rfl
  | cons p l ih =>
    by_cases h : v = p.2
    · subst h
      simp [List.lookup_cons]
    · simp only [List.map_cons, List.lookup_cons, beq_false_of_ne h, ih, List.mem_cons, h,
        false_or]

theorem mem_snd_of_lookup {l : List (Var × Var)} {v v' : Var} (h : l.lookup v = some v') :
    v' ∈ l.map Prod.snd := by
  induction l with
  | nil => cases h
  | cons p l ih =>
    obtain ⟨k, b⟩ := p
    by_cases hk : v = k
    · subst hk
      simp only [List.lookup_cons, beq_self_eq_true, Option.some.injEq] at h
      simp [h]
    · simp only [List.lookup_cons, beq_false_of_ne hk] at h
      exact List.mem_cons_of_mem _ (ih h)

variable {m : ExprReMapper}

/-- A variable met again gets what the map holds; the map already held it. -/
theorem visitVarOf_of_lookup {kind : VarKind} {v v' : Var} (h : (m.mapOf kind).lookup v = some v') :
    m.visitVarOf kind v = (v', m) := by
  simp [visitVarOf, h]

/-- After visiting a variable the map holds the name it got. -/
theorem lookup_visitVarOf (kind : VarKind) (v : Var) :
    ((m.visitVarOf kind v).2.mapOf kind).lookup v = some (m.visitVarOf kind v).1 := by
  unfold visitVarOf
  cases h : (m.mapOf kind).lookup v
  · cases kind <;> simp [setMapOf, mapOf, getNewVarName]
  · exact h

theorem mapOf_setMapOf (m : ExprReMapper) (kind kind' : VarKind) (l : List (Var × Var)) :
    (m.setMapOf kind l).mapOf kind' = if kind' = kind then l else m.mapOf kind' := by
  cases kind <;> cases kind' <;> rfl

theorem countVar_setMapOf (m : ExprReMapper) (kind : VarKind) (l : List (Var × Var)) :
    (m.setMapOf kind l).countVar = m.countVar := by
  cases kind <;> rfl

/-- A variable met for the first time gets the next name, numbered at the counter, and the map
records it. -/
theorem visitVarOf_of_lookup_none {kind : VarKind} {v : Var} (h : (m.mapOf kind).lookup v = none) :
    m.visitVarOf kind v = (⟨m.countVar, "v" ++ toString m.countVar⟩,
      { m with countVar := m.countVar + 1 }.setMapOf kind
        ((v, ⟨m.countVar, "v" ++ toString m.countVar⟩) :: m.mapOf kind)) := by
  unfold visitVarOf
  rw [h]
  rfl

theorem fresh_visitVarOf (kind : VarKind) (hm : m.Fresh) (v : Var) : (m.visitVarOf kind v).2.Fresh := by
  cases h : (m.mapOf kind).lookup v with
  | some v' => rwa [visitVarOf_of_lookup h]
  | none =>
    rw [visitVarOf_of_lookup_none h]
    intro kind' p hp
    rw [mapOf_setMapOf] at hp
    rw [countVar_setMapOf]
    split_ifs at hp
    · rcases List.mem_cons.1 hp with rfl | hp
      · exact Nat.lt_succ_self _
      · exact Nat.lt_succ_of_lt (hm kind p hp)
    · exact Nat.lt_succ_of_lt (hm kind' p hp)

/-- **A name the first pass hands out, met by the second**, is held there as itself, whether the
first pass met the variable before or not. -/
theorem visitVarOf_canonical (kind : VarKind) (hm : m.Fresh) (v : Var) :
    m.canonical.visitVarOf kind (m.visitVarOf kind v).1 =
      ((m.visitVarOf kind v).1, (m.visitVarOf kind v).2.canonical) := by
  cases h : (m.mapOf kind).lookup v with
  | some v' =>
    rw [visitVarOf_of_lookup h, visitVarOf_of_lookup]
    rw [mapOf_canonical, lookup_diag, if_pos (mem_snd_of_lookup h)]
  | none =>
    -- the new name is numbered at the counter, and every name handed out is below it
    have hnew : (⟨m.countVar, "v" ++ toString m.countVar⟩ : Var) ∉ (m.mapOf kind).map Prod.snd :=
      fun hmem => by
        obtain ⟨p, hp, hpv⟩ := List.mem_map.1 hmem
        have := hm kind p hp
        rw [hpv] at this
        exact lt_irrefl _ this
    rw [visitVarOf_of_lookup_none h]
    unfold visitVarOf
    rw [mapOf_canonical, lookup_diag, if_neg hnew]
    cases kind <;> rfl

theorem fresh_visitCallName (hm : m.Fresh) (name : String) (callType : CallType) (func : ℕ) :
    (m.visitCallName name callType func).2.Fresh := by
  unfold visitCallName
  split_ifs
  · split
    · exact hm
    · intro kind p hp
      cases kind
      · exact hm .var p hp
      · exact hm .sizeVar p hp
  · exact hm

/-- A call's name in the second pass: `call_map` is the first pass's, and a remapped call keeps
its function object. -/
theorem visitCallName_canonical (m : ExprReMapper) (name : String) (callType : CallType)
    (func : ℕ) :
    m.canonical.visitCallName (m.visitCallName name callType func).1 callType func =
      ((m.visitCallName name callType func).1, (m.visitCallName name callType func).2.canonical) := by
  unfold visitCallName
  split_ifs
  · show (match m.callMap.lookup func with
        | some name' => (name', m.canonical)
        | none => _) = _
    cases m.callMap.lookup func <;> rfl
  · rfl

theorem fresh_visitVarRefs : ∀ (ls : List Var) {m : ExprReMapper}, m.Fresh → (m.visitVarRefs ls).2.Fresh
  | [], _, hm => hm
  | l :: ls, m, hm => by
    rw [visitVarRefs, visitVarRef_eq]
    exact fresh_visitVarRefs ls (fresh_visitVarOf .var hm l)

theorem visitVarRefs_canonical :
    ∀ (ls : List Var) {m : ExprReMapper}, m.Fresh →
      m.canonical.visitVarRefs (m.visitVarRefs ls).1 =
        ((m.visitVarRefs ls).1, (m.visitVarRefs ls).2.canonical)
  | [], _, _ => rfl
  | l :: ls, m, hm => by
    simp only [visitVarRefs, visitVarRef_eq, visitVar, visitVarOf_canonical .var hm,
      visitVarRefs_canonical ls (fresh_visitVarOf .var hm l)]

theorem fresh_visitAxis : ∀ (axis : List IterVar) {m : ExprReMapper}, m.Fresh → (m.visitAxis axis).2.Fresh
  | [], _, hm => hm
  | .mk v _ _ :: axis, _, hm => fresh_visitAxis axis (fresh_visitVarOf .var hm v)

/-- The axis loop: the second pass finds each axis variable's new name held as itself, and keeps
each domain as the first pass did. -/
theorem visitAxis_canonical :
    ∀ (axis : List IterVar) {m : ExprReMapper}, m.Fresh →
      m.canonical.visitAxis (m.visitAxis axis).1 =
        ((m.visitAxis axis).1, (m.visitAxis axis).2.canonical)
  | [], _, _ => rfl
  | .mk v min extent :: axis, m, hm => by
    have hv : ((m.visitVarOf .var v).2.varMap).lookup v = some (m.visitVarOf .var v).1 :=
      lookup_visitVarOf .var v
    have hv' := lookup_visitVarOf (m := m.canonical) .var (m.visitVarOf .var v).1
    rw [visitVarOf_canonical .var hm] at hv'
    simp only [visitAxis, visitVar, hv, Option.getD_some, visitVarOf_canonical .var hm]
    simp only [mapOf] at hv'
    simp only [hv', Option.getD_some, visitAxis_canonical axis (fresh_visitVarOf .var hm v)]

end ExprReMapper

open ExprReMapper

/-! ### The simulation -/

mutual

theorem fresh_visit : ∀ (e : PrimExpr) {m : ExprReMapper}, m.Fresh → (visit m e).2.Fresh
  | .intImm _, _, hm => hm
  | .var v, _, hm => fresh_visitVarOf .var hm v
  | .sizeVar v, _, hm => fresh_visitVarOf .sizeVar hm v
  | .call name args callType func _, _, hm =>
    fresh_visitCallName (fresh_visitEach args hm) name callType func
  | .binary _ a b, _, hm => fresh_visit b (fresh_visit a hm)
  | .reduce lhs rhs result identityElement source axis condition _, _, hm =>
    fresh_visit condition (fresh_visitAxis axis (fresh_visitEach source (fresh_visitEach
      identityElement (fresh_visitEach result (fresh_visitVarRefs rhs (fresh_visitVarRefs lhs hm))))))

theorem fresh_visitEach : ∀ (es : List PrimExpr) {m : ExprReMapper}, m.Fresh → (visitEach m es).2.Fresh
  | [], _, hm => hm
  | e :: es, _, hm => fresh_visitEach es (fresh_visit e hm)

end

mutual

/-- **The second pass is simulated by the first.** Run from the canonical maps of a first pass on
what that pass produced, the remapper gives it back, and ends with the canonical maps of the
first pass's end. -/
theorem visit_canonical : ∀ (e : PrimExpr) {m : ExprReMapper}, m.Fresh →
    visit m.canonical (visit m e).1 = ((visit m e).1, (visit m e).2.canonical)
  | .intImm _, _, _ => rfl
  | .var v, m, hm => by
    simp only [visit, visitVar, visitVarOf_canonical .var hm]
  | .sizeVar v, m, hm => by
    simp only [visit, visitSizeVar, visitVarOf_canonical .sizeVar hm]
  | .call name args callType func _, m, hm => by
    simp only [visit, visitEach_canonical args hm, visitCallName_canonical]
  | .binary _ a b, m, hm => by
    simp only [visit, visit_canonical a hm, visit_canonical b (fresh_visit a hm)]
  | .reduce lhs rhs result identityElement source axis condition _, m, hm => by
    have h1 := fresh_visitVarRefs lhs hm
    have h2 := fresh_visitVarRefs rhs h1
    have h3 := fresh_visitEach result h2
    have h4 := fresh_visitEach identityElement h3
    have h5 := fresh_visitEach source h4
    simp only [visit, visitVarRefs_canonical lhs hm, visitVarRefs_canonical rhs h1,
      visitEach_canonical result h2, visitEach_canonical identityElement h3,
      visitEach_canonical source h4, visitAxis_canonical axis h5,
      visit_canonical condition (fresh_visitAxis axis h5)]

theorem visitEach_canonical : ∀ (es : List PrimExpr) {m : ExprReMapper}, m.Fresh →
    visitEach m.canonical (visitEach m es).1 = ((visitEach m es).1, (visitEach m es).2.canonical)
  | [], _, _ => rfl
  | e :: es, m, hm => by
    simp only [visitEach, visit_canonical e hm, visitEach_canonical es (fresh_visit e hm)]

end

/-- `visit_canonical` from a fresh remapper, whose canonical maps are its own. -/
theorem visit_init_canonical (e : PrimExpr) :
    visit .init (visit .init e).1 = ((visit .init e).1, (visit .init e).2.canonical) := by
  simpa only [canonical_init] using visit_canonical e fresh_init

/-- Forget which object each variable and size variable is, keeping its name. -/
def Renaming.forgetIds : Renaming where
  varOf _ v := ⟨0, v.nameHint⟩
  func f := f
  funcName _ name := name

/-- **Remapping is idempotent, up to which objects the variables are**: a fresh remapper run on the
remapper's output gives back an expression that differs from it at most in the identity of its
variables. In the source every fresh variable is a new object; the model numbers it by the
counter, and the second pass's variables coincide with the first's. -/
theorem visit_init_idem_forgetIds (e : PrimExpr) :
    (visit .init (visit .init e).1).1.rename .forgetIds = (visit .init e).1.rename .forgetIds := by
  rw [visit_init_canonical]

theorem isReduce_visit (m : ExprReMapper) (e : PrimExpr) : (visit m e).1.isReduce = e.isReduce := by
  cases e <;> rfl

theorem printBody_canonical : ∀ body : List PrimExpr,
    printBody (body.map fun b => (visit .init b).1) = printBody body
  | [] => rfl
  | b :: body => by
    simp only [List.map_cons, printBody, isReduce_visit, visit_init_canonical,
      printBody_canonical body]

/-- **The tag does not change when each expression of the body is first remapped**: the tag
factors through the remapper's canonical form. -/
theorem generateTagFromBody_canonical (shape body : List PrimExpr) :
    generateTagFromBody shape (body.map fun b => (visit .init b).1) =
      generateTagFromBody shape body := by
  cases body with
  | nil => rfl
  | cons b rest =>
    have hbody := printBody_canonical (b :: rest)
    rw [List.map_cons] at hbody
    rw [List.map_cons, generateTagFromBody, generateTagFromBody, isReduce_visit, List.length_cons,
      List.length_cons, List.length_map, visit_init_canonical, hbody]

end Graph

end Amos
