import Mathlib.Data.List.Sort
import Mathlib.Data.List.Nodup
import Mathlib.Data.Multiset.Basic
import Mathlib.Algebra.Order.Field.Rat

/-!
# The search context of one subgraph

`AutoScheduleContext` is the per-key state the tuner of `auto_schedule.cc` keeps: the top-k cache
of evaluated schedules (`topk_schedules`), the entities already fed back (`known_schedules`), the
entities handed out by a round and not yet fed back (`knowing_schedules`), the round counter
(`counts`), and the two knobs `topk` and `new_trial` fixed when the context is created.

## Representations

* An `std::unordered_set` of entities is an `EntitySet`: a duplicate-free list, iterated in list
  order. The hash table's iteration order is not specified; every statement about the eviction
  loop is proved for an arbitrary duplicate-free list, so for every order.
* `topk_schedules` is an `std::priority_queue` whose element ordering is declared in
  `auto_schedule.h`, outside the source tree. It is modelled from the spec: a min-heap by
  evaluation, `top()` being a result of least evaluation. The heap is a list sorted by evaluation,
  least first, and sortedness is a field, so an out-of-order heap cannot be built.
* Evaluations are exact rationals.

The schedule space, target and policy of a context are external collaborators. They appear only
through what a round receives from them (`Amos.AutoSchedule.RoundInput`).

## Main definitions

* `EntitySet`, with `insert`, `erase`, `card`
* `TopkHeap`, with `top?`, `pop`, `push`, and `evals`, the multiset of evaluations it holds
* `AutoScheduleContext`, `AutoScheduleContext.create`
-/

namespace Amos

namespace AutoSchedule

variable {E : Type}

/-! ### Entity sets -/

/-- An `std::unordered_set<MultiScheduleEntity>`: its elements in iteration order. -/
structure EntitySet (E : Type) where
  /-- The elements, in iteration order. -/
  elems : List E
  /-- A set holds each entity once. -/
  nodup : elems.Nodup

namespace EntitySet

instance : Membership E (EntitySet E) := ⟨fun s x => x ∈ s.elems⟩

@[simp] theorem mem_elems {s : EntitySet E} {x : E} : x ∈ s.elems ↔ x ∈ s := Iff.rfl

instance [DecidableEq E] (x : E) (s : EntitySet E) : Decidable (x ∈ s) :=
  inferInstanceAs (Decidable (x ∈ s.elems))

/-- The empty set. -/
def empty : EntitySet E := ⟨[], List.nodup_nil⟩

/-- `size()`. -/
def card (s : EntitySet E) : ℕ := s.elems.length

@[simp] theorem not_mem_empty (x : E) : x ∉ (empty : EntitySet E) := List.not_mem_nil x

variable [DecidableEq E]

/-- `insert(x)`: no effect when `x` is present. -/
def insert (x : E) (s : EntitySet E) : EntitySet E := ⟨s.elems.insert x, s.nodup.insert⟩

/-- `erase(x)`: no effect when `x` is absent. -/
def erase (x : E) (s : EntitySet E) : EntitySet E := ⟨s.elems.erase x, s.nodup.erase x⟩

@[simp] theorem mem_insert {x y : E} {s : EntitySet E} : y ∈ s.insert x ↔ y = x ∨ y ∈ s :=
  List.mem_insert_iff

@[simp] theorem mem_erase {x y : E} {s : EntitySet E} : y ∈ s.erase x ↔ y ≠ x ∧ y ∈ s :=
  s.nodup.mem_erase_iff

theorem card_insert_le (x : E) (s : EntitySet E) : (s.insert x).card ≤ s.card + 1 := by
  by_cases h : x ∈ s.elems
  · simp [card, insert, List.length_insert_of_mem h]
  · simp [card, insert, List.length_insert_of_not_mem h]

theorem card_insert_of_not_mem {x : E} {s : EntitySet E} (h : x ∉ s) :
    (s.insert x).card = s.card + 1 :=
  List.length_insert_of_not_mem h

end EntitySet

/-! ### Results and the top-k heap -/

/-- `ScheduleResult`: what a round hands out. The search core reads only its entity; the schedule
and tensors it also carries belong to the lowering pipeline. -/
structure ScheduleResult (E : Type) where
  /-- The entity the schedule was built from. -/
  scheduleEntities : E
  deriving DecidableEq, Repr

/-- `EvaluatedScheduleResult`: a result together with the evaluation fed back for it. -/
structure EvaluatedScheduleResult (E : Type) where
  scheduleResult : ScheduleResult E
  evaluation : ℚ
  deriving DecidableEq, Repr

namespace EvaluatedScheduleResult

/-- Modelled from the spec: `operator<` on `EvaluatedScheduleResult` is declared in
`auto_schedule.h`, which is not in `src/`. The spec's `topk` is a min-heap that keeps the largest
evaluations, so results compare by evaluation alone, and `a < b` is the comparison the heap and
`add_feedback` use. -/
instance : Preorder (EvaluatedScheduleResult E) := Preorder.lift evaluation

theorem le_def {a b : EvaluatedScheduleResult E} : a ≤ b ↔ a.evaluation ≤ b.evaluation := Iff.rfl

theorem lt_def {a b : EvaluatedScheduleResult E} : a < b ↔ a.evaluation < b.evaluation := Iff.rfl

instance : IsTotal (EvaluatedScheduleResult E) (· ≤ ·) :=
  ⟨fun a b => le_total a.evaluation b.evaluation⟩

instance : @DecidableRel (EvaluatedScheduleResult E) (· ≤ ·) :=
  fun a b => inferInstanceAs (Decidable (a.evaluation ≤ b.evaluation))

instance : @DecidableRel (EvaluatedScheduleResult E) (· < ·) :=
  fun a b => inferInstanceAs (Decidable (a.evaluation < b.evaluation))

end EvaluatedScheduleResult

/-- Modelled from the spec: `topk_schedules`, an `std::priority_queue<EvaluatedScheduleResult>`
whose `top()` is a result of least evaluation (min-heap semantics). It is kept as the list of its
results sorted by evaluation, least first. -/
structure TopkHeap (E : Type) where
  /-- The results, least evaluation first. -/
  items : List (EvaluatedScheduleResult E)
  sorted : items.Sorted (· ≤ ·)

namespace TopkHeap

/-- The empty heap. -/
def empty : TopkHeap E := ⟨[], List.sorted_nil⟩

/-- `size()`. -/
def size (h : TopkHeap E) : ℕ := h.items.length

/-- `top()`, or `none` on an empty heap. -/
def top? (h : TopkHeap E) : Option (EvaluatedScheduleResult E) := h.items.head?

/-- `pop()`: drop the top. -/
def pop (h : TopkHeap E) : TopkHeap E := ⟨h.items.tail, h.sorted.tail⟩

/-- `push(x)`. Among equal evaluations the newest goes first; the heap does not specify it. -/
def push (x : EvaluatedScheduleResult E) (h : TopkHeap E) : TopkHeap E :=
  ⟨h.items.orderedInsert (· ≤ ·) x, h.sorted.orderedInsert x h.items⟩

/-- The multiset of evaluations the heap holds. -/
def evals (h : TopkHeap E) : Multiset ℚ := (h.items.map (·.evaluation) : Multiset ℚ)

@[simp] theorem size_empty : (empty : TopkHeap E).size = 0 := rfl

@[simp] theorem evals_empty : (empty : TopkHeap E).evals = 0 := rfl

@[simp] theorem card_evals (h : TopkHeap E) : Multiset.card h.evals = h.size := by
  simp [evals, size]

@[simp] theorem size_push (x : EvaluatedScheduleResult E) (h : TopkHeap E) :
    (h.push x).size = h.size + 1 :=
  List.orderedInsert_length _ _ _

@[simp] theorem evals_push (x : EvaluatedScheduleResult E) (h : TopkHeap E) :
    (h.push x).evals = x.evaluation ::ₘ h.evals := by
  simp only [evals, push]
  rw [Multiset.coe_eq_coe.2 (((List.perm_orderedInsert _ x h.items).map _)), List.map_cons,
    Multiset.cons_coe]

theorem mem_push {x y : EvaluatedScheduleResult E} {h : TopkHeap E} :
    y ∈ (h.push x).items ↔ y = x ∨ y ∈ h.items :=
  (List.perm_orderedInsert _ x h.items).mem_iff.trans List.mem_cons

theorem top?_eq_none {h : TopkHeap E} : h.top? = none ↔ h.size = 0 := by
  simp [top?, size]

/-- The top is least: the heap property, read off the sorted list. -/
theorem top_le {h : TopkHeap E} {t : EvaluatedScheduleResult E} (ht : h.top? = some t) :
    ∀ x ∈ h.items, t.evaluation ≤ x.evaluation := by
  obtain ⟨rest, hrest⟩ : ∃ rest, h.items = t :: rest := by
    simpa [top?, List.head?_eq_some_iff] using ht
  have hs := h.sorted
  rw [hrest] at hs ⊢
  intro x hx
  rcases List.mem_cons.1 hx with rfl | hx
  · exact le_rfl
  · exact List.rel_of_sorted_cons hs x hx

theorem evals_of_top? {h : TopkHeap E} {t : EvaluatedScheduleResult E} (ht : h.top? = some t) :
    h.evals = t.evaluation ::ₘ h.pop.evals := by
  obtain ⟨rest, hrest⟩ : ∃ rest, h.items = t :: rest := by
    simpa [top?, List.head?_eq_some_iff] using ht
  simp [evals, pop, hrest]

theorem size_pop {h : TopkHeap E} : h.pop.size = h.size - 1 := by
  simp [pop, size]

end TopkHeap

/-! ### The context -/

/-- `AutoScheduleContext`: what the tuner keeps for one subgraph key. -/
structure AutoScheduleContext (E : Type) where
  /-- The capacity of the top-k cache. -/
  topk : ℕ
  /-- How many candidates a round generates. -/
  newTrial : ℕ
  /-- How many rounds have completed. -/
  counts : ℕ
  topkSchedules : TopkHeap E
  knownSchedules : EntitySet E
  knowingSchedules : EntitySet E

namespace AutoScheduleContext

/-- Modelled from the spec: the constructor `AutoScheduleContext(key, subgraph, target, topk,
new_trial, policy)`, declared in `auto_schedule.h`, starts with an empty cache, empty entity sets
and no completed round. -/
def create (topk newTrial : ℕ) : AutoScheduleContext E :=
  ⟨topk, newTrial, 0, .empty, .empty, .empty⟩

end AutoScheduleContext

end AutoSchedule

end Amos
