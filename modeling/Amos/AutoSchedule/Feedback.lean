import Amos.AutoSchedule.Context

/-!
# Feedback ingestion

`AutoScheduleContext::add_feedback`, lines 204–235 of `auto_schedule.cc`. A positive evaluation is
offered to the top-k heap: pushed while the heap is below capacity, otherwise swapped for the top
unless it compares below it, in which case the function **returns early**. Every path that does not
return early then records the entity as known, drops it from the in-flight set, and evicts part of
`known_schedules` once it holds more than 2000 entities.

## The eviction loop

```
int count = 0;
for (auto val : known_schedules) {
  to_delete.push_back(val);
  if (count > 1000) break;
  count += 1;
}
```

collects the first `1002` entities of the iteration order, not `1001`: the test comes after the
push. `evictionBatch_zero` says so, for every iteration order, and `card_evict_of_card_eq` that an
eviction at size `2001` leaves `999`.

## Main results

* `addFeedback_sets`, `knownSchedules_addFeedback`, `addFeedback_heap` — what one call does, split
  into the entity sets and the heap; later proofs use these and never unfold `addFeedback`
* `evictionBatch_zero`, `card_evict_of_card_eq`, `card_evict_le`
-/

namespace Amos

namespace AutoSchedule

variable {E : Type}

/-! ### Eviction -/

/-- The counting loop of `add_feedback`: walk `known_schedules` in iteration order, collecting
each entity, and stop right after collecting one while `count > 1000`. -/
def evictionBatch : List E → ℕ → List E
  | [], _ => []
  | val :: rest, count => if 1000 < count then [val] else val :: evictionBatch rest (count + 1)

theorem evictionBatch_eq_take (l : List E) {count : ℕ} (h : count ≤ 1001) :
    evictionBatch l count = l.take (1002 - count) := by
  induction l generalizing count with
  | nil => simp [evictionBatch]
  | cons val rest ih =>
    by_cases hc : 1000 < count
    · obtain rfl : count = 1001 := by omega
      simp [evictionBatch]
    · rw [evictionBatch, if_neg hc, ih (by omega), show 1002 - count = 1002 - (count + 1) + 1 by omega,
        List.take_succ_cons]

/-- **The batch.** Whatever the iteration order, the loop collects its first `1002` entities. -/
theorem evictionBatch_zero (l : List E) : evictionBatch l 0 = l.take 1002 :=
  evictionBatch_eq_take l (by omega)

variable [DecidableEq E]

/-- The deleting loop: erase every collected entity. -/
def eraseAll (toDelete : List E) (s : EntitySet E) : EntitySet E :=
  toDelete.foldl (fun s val => s.erase val) s

/-- The eviction `add_feedback` runs on `known_schedules` after inserting into it. -/
def evict (s : EntitySet E) : EntitySet E :=
  if 2000 < s.card then eraseAll (evictionBatch s.elems 0) s else s

theorem elems_eraseAll (toDelete : List E) (s : EntitySet E) :
    (eraseAll toDelete s).elems = toDelete.foldl List.erase s.elems := by
  induction toDelete generalizing s with
  | nil => rfl
  | cons val rest ih => exact ih (s.erase val)

/-- Erasing a prefix of a list, front to back, leaves the rest. -/
theorem foldl_erase_take (l : List E) (n : ℕ) : (l.take n).foldl List.erase l = l.drop n := by
  induction n generalizing l with
  | zero => rfl
  | succ n ih =>
    cases l with
    | nil => rfl
    | cons a t => simpa using ih t

theorem elems_evict_of_lt {s : EntitySet E} (h : 2000 < s.card) :
    (evict s).elems = s.elems.drop 1002 := by
  rw [evict, if_pos h, elems_eraseAll, evictionBatch_zero, foldl_erase_take]

/-- **An eviction at `2001` leaves `999`.** -/
theorem card_evict_of_card_eq {s : EntitySet E} (h : s.card = 2001) : (evict s).card = 999 := by
  rw [EntitySet.card, elems_evict_of_lt (by omega), List.length_drop]
  simp only [EntitySet.card] at h
  omega

theorem card_evict_le {s : EntitySet E} (h : s.card ≤ 2001) : (evict s).card ≤ 2000 := by
  by_cases hs : 2000 < s.card
  · rw [card_evict_of_card_eq (by omega)]
    omega
  · rw [evict, if_neg hs]
    omega

/-- Within the cap the eviction does nothing. -/
theorem evict_of_card_le {s : EntitySet E} (h : s.card ≤ 2000) : evict s = s :=
  if_neg (by omega)

/-- An eviction deletes exactly the collected entities. -/
theorem mem_evict_iff {s : EntitySet E} (h : 2000 < s.card) {y : E} :
    y ∈ evict s ↔ y ∈ s ∧ y ∉ evictionBatch s.elems 0 := by
  have hnd := s.nodup
  rw [← List.take_append_drop 1002 s.elems] at hnd
  rw [← EntitySet.mem_elems, elems_evict_of_lt h, evictionBatch_zero, ← EntitySet.mem_elems]
  constructor
  · exact fun hy => ⟨List.mem_of_mem_drop hy, fun ht => List.disjoint_of_nodup_append hnd ht hy⟩
  · rintro ⟨hy, hnt⟩
    rw [← List.take_append_drop 1002 s.elems] at hy
    exact (List.mem_append.1 hy).resolve_left hnt

theorem mem_of_mem_evict {s : EntitySet E} {x : E} (h : x ∈ evict s) : x ∈ s := by
  by_cases hs : 2000 < s.card
  · rw [← EntitySet.mem_elems, elems_evict_of_lt hs] at h
    exact List.mem_of_mem_drop h
  · rwa [evict, if_neg hs] at h

/-! ### `add_feedback` -/

/-- `evaluated < top()`. On an empty heap `top()` is undefined behaviour; that is reached only with
`topk = 0`, and the model answers `false` there. -/
def TopkHeap.belowTop (h : TopkHeap E) (x : EvaluatedScheduleResult E) : Bool :=
  match h.top? with
  | some t => decide (x < t)
  | none => false

namespace AutoScheduleContext

/-- The bookkeeping at the end of `add_feedback`: record the entity as known, drop it from the
in-flight set, and evict. -/
def recordKnown (c : AutoScheduleContext E) (x : E) : AutoScheduleContext E :=
  { c with
    knownSchedules := evict (c.knownSchedules.insert x)
    knowingSchedules := c.knowingSchedules.erase x }

/-- `AutoScheduleContext::add_feedback(schedule_result, evaluation)`. -/
def addFeedback (c : AutoScheduleContext E) (scheduleResult : ScheduleResult E)
    (evaluation : ℚ) : AutoScheduleContext E :=
  let x := scheduleResult.scheduleEntities
  if 0 < evaluation then
    let evaluated : EvaluatedScheduleResult E := ⟨scheduleResult, evaluation⟩
    if c.topkSchedules.size < c.topk then
      { c with topkSchedules := c.topkSchedules.push evaluated }.recordKnown x
    else if c.topkSchedules.belowTop evaluated then c
    else { c with topkSchedules := c.topkSchedules.pop.push evaluated }.recordKnown x
  else c.recordKnown x

/-- Whether `add_feedback` takes its early `return`: a positive evaluation that compares below the
top of a full heap. -/
def returnsEarly (c : AutoScheduleContext E) (scheduleResult : ScheduleResult E) (evaluation : ℚ) :
    Bool :=
  decide (0 < evaluation) && !decide (c.topkSchedules.size < c.topk) &&
    c.topkSchedules.belowTop ⟨scheduleResult, evaluation⟩

variable (c : AutoScheduleContext E) (r : ScheduleResult E) (e : ℚ)

@[simp] theorem topk_addFeedback : (c.addFeedback r e).topk = c.topk := by
  unfold addFeedback
  dsimp only
  split_ifs <;> rfl

@[simp] theorem newTrial_addFeedback : (c.addFeedback r e).newTrial = c.newTrial := by
  unfold addFeedback
  dsimp only
  split_ifs <;> rfl

/-- **The entity sets after a feedback.** Untouched on the early return; otherwise the entity is
recorded as known, dropped from the in-flight set, and `known_schedules` is evicted. -/
theorem addFeedback_sets :
    ((c.addFeedback r e).knownSchedules = c.knownSchedules ∧
        (c.addFeedback r e).knowingSchedules = c.knowingSchedules) ∨
      ((c.addFeedback r e).knownSchedules = evict (c.knownSchedules.insert r.scheduleEntities) ∧
        (c.addFeedback r e).knowingSchedules = c.knowingSchedules.erase r.scheduleEntities) := by
  unfold addFeedback
  dsimp only
  split_ifs
  exacts [.inr ⟨rfl, rfl⟩, .inl ⟨rfl, rfl⟩, .inr ⟨rfl, rfl⟩, .inr ⟨rfl, rfl⟩]

/-- **`known_schedules` after a feedback**: untouched on the early return; otherwise the entity is
inserted, and the eviction runs on the result. -/
theorem knownSchedules_addFeedback :
    (c.addFeedback r e).knownSchedules =
      if c.returnsEarly r e then c.knownSchedules
      else evict (c.knownSchedules.insert r.scheduleEntities) := by
  unfold addFeedback returnsEarly
  dsimp only
  by_cases he : 0 < e
  · by_cases hs : c.topkSchedules.size < c.topk
    · simp [he, hs, recordKnown]
    · by_cases hb : c.topkSchedules.belowTop ⟨r, e⟩ <;> simp [he, hs, hb, recordKnown]
  · simp [he, recordKnown]

/-- **The heap after a feedback**, given a positive capacity: unchanged, or the evaluation pushed
below capacity, or the evaluation swapped for a top it does not fall below. -/
theorem addFeedback_heap (hk : 0 < c.topk) :
    ((c.addFeedback r e).topkSchedules = c.topkSchedules ∧
        (e ≤ 0 ∨ 0 < e ∧ c.topk ≤ c.topkSchedules.size ∧
          ∃ t, c.topkSchedules.top? = some t ∧ e < t.evaluation)) ∨
      (0 < e ∧ c.topkSchedules.size < c.topk ∧
        (c.addFeedback r e).topkSchedules = c.topkSchedules.push ⟨r, e⟩) ∨
      (0 < e ∧ c.topk ≤ c.topkSchedules.size ∧ ∃ t, c.topkSchedules.top? = some t ∧
        t.evaluation ≤ e ∧ (c.addFeedback r e).topkSchedules = c.topkSchedules.pop.push ⟨r, e⟩) := by
  unfold addFeedback
  dsimp only
  by_cases he : 0 < e
  · rw [if_pos he]
    by_cases hs : c.topkSchedules.size < c.topk
    · exact .inr (.inl ⟨he, hs, by rw [if_pos hs]; rfl⟩)
    · rw [if_neg hs]
      obtain ⟨t, ht⟩ : ∃ t, c.topkSchedules.top? = some t := Option.ne_none_iff_exists'.1
        fun h0 => hs (by rw [TopkHeap.top?_eq_none.1 h0]; exact hk)
      have hbelow : c.topkSchedules.belowTop ⟨r, e⟩ = decide (e < t.evaluation) := by
        simp [TopkHeap.belowTop, ht, EvaluatedScheduleResult.lt_def]
      by_cases hlt : e < t.evaluation
      · rw [if_pos (by simp [hbelow, hlt])]
        exact .inl ⟨rfl, .inr ⟨he, not_lt.1 hs, t, ht, hlt⟩⟩
      · rw [if_neg (by simp [hbelow, hlt])]
        exact .inr (.inr ⟨he, not_lt.1 hs, t, ht, not_lt.1 hlt, rfl⟩)
  · rw [if_neg he]
    exact .inl ⟨rfl, .inl (not_lt.1 he)⟩

/-- Whatever the capacity, a feedback only ever adds its own result, and only when its evaluation
is positive. -/
theorem mem_addFeedback_heap {x : EvaluatedScheduleResult E}
    (hx : x ∈ (c.addFeedback r e).topkSchedules.items) :
    x ∈ c.topkSchedules.items ∨ (x = ⟨r, e⟩ ∧ 0 < e) := by
  unfold addFeedback at hx
  dsimp only at hx
  split_ifs at hx with he
  · rcases TopkHeap.mem_push.1 hx with rfl | hx
    exacts [.inr ⟨rfl, he⟩, .inl hx]
  · exact .inl hx
  · rcases TopkHeap.mem_push.1 hx with rfl | hx
    exacts [.inr ⟨rfl, he⟩, .inl (List.mem_of_mem_tail hx)]
  · exact .inl hx

end AutoScheduleContext

end AutoSchedule

end Amos
