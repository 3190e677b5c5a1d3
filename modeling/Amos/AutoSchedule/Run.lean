import Amos.AutoSchedule.TopK
import Amos.AutoSchedule.Feedback
import Amos.AutoSchedule.Round

/-!
# Sequential runs of one key's context

The operations that reach a key's `AutoScheduleContext` are `add_feedback` (directly or through
`feedback_for`), a round of `auto_schedule` (through `schedule_func`), and
`clear_schedule_cache_for`. A sequential run applies them one after another to the context
created for the key. `execute_invariant` lifts a fact kept by every single operation to every run;
each invariant below is one step lemma and one application of it.

## Main results

* `execute_topk_largest` — the heap is always exactly the `min(P, topk)` largest of the `P`
  positive evaluations fed back
* `execute_reverseSort` — every round drains a sorted, positive `reverse_sort`, so its
  possibilities are well defined, lie in `(0, 1]`, grow, and end in `1`
* `execute_known_bounded` — `known_schedules` stays within 2000, and the next feedback evicts
  exactly when its insertion reaches 2001, deleting the 1002 collected entities and leaving 999
* `disjoint_addFeedback`, `disjoint_clearKnowing`, `disjoint_autoSchedule_iff` — how
  `known_schedules` and `knowing_schedules` can come to overlap: only through a round whose
  winner is already known
-/

namespace Amos

namespace AutoSchedule

variable {E : Type} [DecidableEq E]

/-- `clear_schedule_cache_for(key)` on a key that has a context: empty `knowing_schedules`. -/
def AutoScheduleContext.clearKnowing (c : AutoScheduleContext E) : AutoScheduleContext E :=
  { c with knowingSchedules := .empty }

/-- An operation on one key's context. -/
inductive Op (E : Type)
  /-- `add_feedback(schedule_result, evaluation)`, directly or through `feedback_for`. -/
  | feedback (scheduleResult : ScheduleResult E) (evaluation : ℚ)
  /-- A round of `auto_schedule`, through `schedule_func`. -/
  | round (inp : RoundInput E)
  /-- `clear_schedule_cache_for`. -/
  | clear

open AutoScheduleContext

/-- One operation; `none` where a round reads out of bounds. -/
def step (c : AutoScheduleContext E) : Op E → Option (AutoScheduleContext E)
  | .feedback r e => some (c.addFeedback r e)
  | .round inp => (c.autoSchedule inp).map Prod.fst
  | .clear => some c.clearKnowing

/-- A sequential run of operations. -/
def execute (c : AutoScheduleContext E) : List (Op E) → Option (AutoScheduleContext E)
  | [] => some c
  | op :: ops => (step c op).bind fun c' => execute c' ops

/-- The positive evaluation an operation feeds back, if any. -/
def fedOf : Op E → Multiset ℚ
  | .feedback _ e => if 0 < e then {e} else 0
  | _ => 0

/-- The positive evaluations a run feeds back. -/
def fedBack (ops : List (Op E)) : Multiset ℚ := (ops.map fedOf).sum

/-- **What a step can do**: a feedback, a round that stays in bounds, or a clear. -/
theorem step_eq_some {c c' : AutoScheduleContext E} {op : Op E} (h : step c op = some c') :
    (∃ r e, op = .feedback r e ∧ c' = c.addFeedback r e) ∨
      (∃ inp res, op = .round inp ∧ c.autoSchedule inp = some (c', res)) ∨
      (op = .clear ∧ c' = c.clearKnowing) := by
  cases op with
  | feedback r e => exact .inl ⟨r, e, rfl, (Option.some.inj h).symm⟩
  | round inp =>
    obtain ⟨⟨c'', res⟩, hr, rfl⟩ := Option.map_eq_some'.1 h
    exact .inr (.inl ⟨inp, res, rfl, hr⟩)
  | clear => exact .inr (.inr ⟨rfl, (Option.some.inj h).symm⟩)

theorem topk_of_step {c c' : AutoScheduleContext E} {op : Op E} (h : step c op = some c') :
    c'.topk = c.topk := by
  obtain ⟨r, e, -, rfl⟩ | ⟨inp, res, -, hr⟩ | ⟨-, rfl⟩ := step_eq_some h
  · exact topk_addFeedback c r e
  · rw [(autoSchedule_spec hr).1]
  · rfl

/-- **Runs keep what steps keep**, with the evaluations fed back along the way. -/
theorem execute_invariant (P : AutoScheduleContext E → Multiset ℚ → Prop)
    (hstep : ∀ c c' op fed, P c fed → step c op = some c' → P c' (fedOf op + fed)) :
    ∀ (ops : List (Op E)) {c c' : AutoScheduleContext E} {fed : Multiset ℚ},
      P c fed → execute c ops = some c' → P c' (fedBack ops + fed)
  | [], c, c', fed, h, hx => by
    cases hx
    simpa [fedBack] using h
  | op :: ops, c, c', fed, h, hx => by
    obtain ⟨c1, h1, hx⟩ := Option.bind_eq_some.1 hx
    have := execute_invariant P hstep ops (hstep c c1 op fed h h1) hx
    rwa [fedBack, List.map_cons, List.sum_cons, add_comm (fedOf op), add_assoc]

/-- `execute_invariant` from a fresh context. -/
theorem execute_create_invariant (P : AutoScheduleContext E → Multiset ℚ → Prop)
    (hstep : ∀ c c' op fed, P c fed → step c op = some c' → P c' (fedOf op + fed))
    {topk newTrial : ℕ} {ops : List (Op E)} {c : AutoScheduleContext E}
    (h0 : P (create topk newTrial) 0) (hx : execute (create topk newTrial) ops = some c) :
    P c (fedBack ops) := by
  simpa using execute_invariant P hstep ops h0 hx

/-! ### The top-k heap -/

omit [DecidableEq E] in
theorem TopkHeap.countP_evals (h : TopkHeap E) (p : ℚ → Prop) [DecidablePred p]
    (hp : ∀ x ∈ h.items, p x.evaluation) : Multiset.countP p h.evals = h.size := by
  rw [Multiset.countP_eq_card.2, TopkHeap.card_evals]
  simpa [TopkHeap.evals] using hp

/-- The heap within capacity, outranking what it misses. -/
def TopkInv (c : AutoScheduleContext E) (fed : Multiset ℚ) : Prop :=
  Outranked c.topk fed c.topkSchedules.evals ∧ c.topkSchedules.size ≤ c.topk

/-- **A feedback keeps the heap outranking**, together with any other entries `R` held aside. -/
theorem outranked_addFeedback {c : AutoScheduleContext E} {fed R : Multiset ℚ} (hk : 0 < c.topk)
    (h : Outranked c.topk fed (c.topkSchedules.evals + R)) (r : ScheduleResult E) (e : ℚ) :
    Outranked c.topk (fedOf (.feedback r e) + fed) ((c.addFeedback r e).topkSchedules.evals + R) := by
  have hfed : ∀ he : 0 < e, fedOf (.feedback r e) + fed = e ::ₘ fed := fun he => by
    simp [fedOf, he, Multiset.singleton_add]
  rcases addFeedback_heap c r e hk with
    ⟨hh, he | ⟨he, hsz, t, ht, hlt⟩⟩ | ⟨he, hsz, hh⟩ | ⟨he, hsz, t, ht, hle, hh⟩
  · simpa [hh, fedOf, not_lt.2 he] using h
  · rw [hh, hfed he]
    refine h.skip (le_trans ?_ (Multiset.countP_le_of_le _ (Multiset.le_add_right _ _)))
    rw [c.topkSchedules.countP_evals _ fun x hx => (hlt.trans_le (TopkHeap.top_le ht x hx)).le]
    exact hsz
  · rw [hh, hfed he, TopkHeap.evals_push, Multiset.cons_add]
    exact h.cons e
  · have hsize : c.topkSchedules.pop.size + 1 = c.topkSchedules.size := by
      rw [TopkHeap.size_pop]
      have : c.topkSchedules.size ≠ 0 := fun h0 => by simp [TopkHeap.top?_eq_none.2 h0] at ht
      omega
    rw [TopkHeap.evals_of_top? ht, Multiset.cons_add] at h
    rw [hh, hfed he, TopkHeap.evals_push, Multiset.cons_add]
    refine h.replace hle (le_trans ?_ (Multiset.countP_le_of_le _
      ((Multiset.cons_le_cons_iff e).2 (Multiset.le_add_right _ _))))
    rw [Multiset.countP_cons_of_pos _ hle, (c.topkSchedules.pop).countP_evals _ fun x hx =>
      TopkHeap.top_le ht x (List.mem_of_mem_tail hx), hsize]
    exact hsz

theorem topkInv_addFeedback {c : AutoScheduleContext E} {fed : Multiset ℚ} (hk : 0 < c.topk)
    (h : TopkInv c fed) (r : ScheduleResult E) (e : ℚ) :
    TopkInv (c.addFeedback r e) (fedOf (.feedback r e) + fed) := by
  refine ⟨by simpa using outranked_addFeedback (R := 0) hk (by simpa using h.1) r e, ?_⟩
  rw [topk_addFeedback]
  rcases addFeedback_heap c r e hk with ⟨hh, -⟩ | ⟨-, hsz, hh⟩ | ⟨-, -, t, ht, -, hh⟩
  · exact hh ▸ h.2
  · rw [hh, TopkHeap.size_push]
    exact hsz
  · rw [hh, TopkHeap.size_push, TopkHeap.size_pop]
    have : c.topkSchedules.size ≠ 0 := fun h0 => by simp [TopkHeap.top?_eq_none.2 h0] at ht
    have := h.2
    omega

theorem topkInv_step {c c' : AutoScheduleContext E} {fed : Multiset ℚ} {op : Op E}
    (hk : 0 < c.topk) (h : TopkInv c fed) (hs : step c op = some c') :
    TopkInv c' (fedOf op + fed) := by
  obtain ⟨r, e, rfl, rfl⟩ | ⟨inp, res, rfl, hr⟩ | ⟨rfl, rfl⟩ := step_eq_some hs
  · exact topkInv_addFeedback hk h r e
  · rw [(autoSchedule_spec hr).1]
    simpa [TopkInv, fedOf, TopkHeap.evals_restore_drain, TopkHeap.size_restore_drain] using h
  · simpa [fedOf] using h

/-- **The top-k cache keeps the `k` largest.** For every capacity `topk ≥ 1` and every run from a
fresh context, the heap holds exactly the `min(P, topk)` largest of the `P` positive evaluations
fed back so far, and never more than `topk` entries. -/
theorem execute_topk_largest {topk newTrial : ℕ} (hk : 0 < topk) {ops : List (Op E)}
    {c : AutoScheduleContext E} (hx : execute (create topk newTrial) ops = some c) :
    IsTopK topk (fedBack ops) c.topkSchedules.evals ∧ c.topkSchedules.size ≤ topk := by
  obtain ⟨hc, hout, hsize⟩ := execute_create_invariant
    (fun c fed => c.topk = topk ∧ TopkInv c fed)
    (fun c c' op fed ⟨hc, h⟩ hs => ⟨(topk_of_step hs).trans hc, topkInv_step (hc ▸ hk) h hs⟩)
    ⟨rfl, outranked_zero, Nat.zero_le _⟩ hx
  rw [hc] at hout
  exact ⟨hout.isTopK (by rw [TopkHeap.card_evals, ← hc]; exact hsize), hc ▸ hsize⟩

/-- `execute_topk_largest` on two feedbacks into a cache of capacity one. -/
theorem execute_topk_largest_two_feedbacks :
    ∃ c, execute (create 1 1 : AutoScheduleContext ℕ) [.feedback ⟨5⟩ 2, .feedback ⟨7⟩ 3] = some c ∧
      IsTopK 1 (fedBack [.feedback ⟨5⟩ 2, .feedback ⟨7⟩ 3]) c.topkSchedules.evals := by
  obtain ⟨c, hx⟩ : ∃ c, execute (create 1 1 : AutoScheduleContext ℕ)
      [.feedback ⟨5⟩ 2, .feedback ⟨7⟩ 3] = some c := ⟨_, rfl⟩
  exact ⟨c, hx, (execute_topk_largest (by decide) hx).1⟩

/-! ### The drained heap -/

theorem heap_pos_step {c c' : AutoScheduleContext E} {op : Op E}
    (h : ∀ x ∈ c.topkSchedules.items, 0 < x.evaluation) (hs : step c op = some c') :
    ∀ x ∈ c'.topkSchedules.items, 0 < x.evaluation := by
  obtain ⟨r, e, rfl, rfl⟩ | ⟨inp, res, rfl, hr⟩ | ⟨rfl, rfl⟩ := step_eq_some hs
  · intro x hx
    rcases mem_addFeedback_heap c r e hx with hx | ⟨rfl, he⟩
    exacts [h x hx, he]
  · rw [(autoSchedule_spec hr).1]
    intro x hx
    rcases TopkHeap.mem_restore.1 hx with hx | hx
    exacts [absurd hx (List.not_mem_nil x), h x hx]
  · exact h

/-- **Every round divides by a positive best.** In every state a run reaches, the `reverse_sort` a
round drains is sorted by evaluation and positive; when it is nonempty its last entry is the
greatest and positive, and the possibilities `p` lie in `(0, 1]`, grow along it, and end in `1`. -/
theorem execute_reverseSort {topk newTrial : ℕ} {ops : List (Op E)} {c : AutoScheduleContext E}
    (hx : execute (create topk newTrial) ops = some c) :
    c.topkSchedules.drain.Sorted (· ≤ ·) ∧ (∀ x ∈ c.topkSchedules.drain, 0 < x.evaluation) ∧
      ∀ best, c.topkSchedules.drain.getLast? = some best →
        0 < best.evaluation ∧ (∀ x ∈ c.topkSchedules.drain, x.evaluation ≤ best.evaluation) ∧
        (∀ q ∈ possibilities c.topkSchedules.drain, 0 < q ∧ q ≤ 1) ∧
        (possibilities c.topkSchedules.drain).Sorted (· ≤ ·) ∧
        (possibilities c.topkSchedules.drain).getLast? = some 1 := by
  have hpos : ∀ x ∈ c.topkSchedules.drain, 0 < x.evaluation :=
    execute_create_invariant (fun c _ => ∀ x ∈ c.topkSchedules.items, 0 < x.evaluation)
      (fun _ _ _ _ h hs => heap_pos_step h hs) (fun x hx => absurd hx (List.not_mem_nil x)) hx
  refine ⟨c.topkSchedules.sorted, hpos, fun best hb => ?_⟩
  have hbest := hpos best (List.mem_of_getLast?_eq_some hb)
  exact ⟨hbest, le_of_getLast? c.topkSchedules.sorted hb,
    possibilities_spec c.topkSchedules.sorted hb hbest⟩

/-- `execute_reverseSort` after two feedbacks. -/
theorem execute_reverseSort_two_feedbacks :
    ∃ c, execute (create 2 1 : AutoScheduleContext ℕ) [.feedback ⟨5⟩ 2, .feedback ⟨7⟩ 3] = some c ∧
      c.topkSchedules.drain.Sorted (· ≤ ·) ∧ (∀ x ∈ c.topkSchedules.drain, 0 < x.evaluation) ∧
      ∀ best, c.topkSchedules.drain.getLast? = some best →
        0 < best.evaluation ∧ (∀ x ∈ c.topkSchedules.drain, x.evaluation ≤ best.evaluation) ∧
        (∀ q ∈ possibilities c.topkSchedules.drain, 0 < q ∧ q ≤ 1) ∧
        (possibilities c.topkSchedules.drain).Sorted (· ≤ ·) ∧
        (possibilities c.topkSchedules.drain).getLast? = some 1 :=
  ⟨_, rfl, @execute_reverseSort ℕ _ 2 1 [.feedback ⟨5⟩ 2, .feedback ⟨7⟩ 3] _ rfl⟩

/-! ### The size of `known_schedules` -/

theorem card_known_step {c c' : AutoScheduleContext E} {op : Op E}
    (h : c.knownSchedules.card ≤ 2000) (hs : step c op = some c') :
    c'.knownSchedules.card ≤ 2000 := by
  obtain ⟨r, e, rfl, rfl⟩ | ⟨inp, res, rfl, hr⟩ | ⟨rfl, rfl⟩ := step_eq_some hs
  · rcases addFeedback_sets c r e with ⟨hk, -⟩ | ⟨hk, -⟩ <;> rw [hk]
    · exact h
    · exact card_evict_le ((EntitySet.card_insert_le _ _).trans (by omega))
  · rw [(autoSchedule_spec hr).1]
    exact h
  · exact h

/-- **`known_schedules` stays within 2000, and each feedback evicts exactly at 2001.** In every
state a run reaches, `known_schedules` holds at most 2000 entities, and the next `add_feedback`
leaves it untouched on its early return; otherwise it inserts the entity, and the result is
evicted exactly when the insertion brings it past 2000. That happens only at 2001, and then the
eviction deletes exactly the 1002 distinct entities the counting loop collects, leaving 999. -/
theorem execute_known_bounded {topk newTrial : ℕ} {ops : List (Op E)} {c : AutoScheduleContext E}
    (hx : execute (create topk newTrial) ops = some c) (r : ScheduleResult E) (e : ℚ) :
    c.knownSchedules.card ≤ 2000 ∧
      (c.returnsEarly r e = true → (c.addFeedback r e).knownSchedules = c.knownSchedules) ∧
      (c.returnsEarly r e = false →
        ((c.knownSchedules.insert r.scheduleEntities).card ≤ 2000 →
          (c.addFeedback r e).knownSchedules = c.knownSchedules.insert r.scheduleEntities) ∧
        (2000 < (c.knownSchedules.insert r.scheduleEntities).card →
          (c.knownSchedules.insert r.scheduleEntities).card = 2001 ∧
          (evictionBatch (c.knownSchedules.insert r.scheduleEntities).elems 0).length = 1002 ∧
          (evictionBatch (c.knownSchedules.insert r.scheduleEntities).elems 0).Nodup ∧
          (∀ y, y ∈ (c.addFeedback r e).knownSchedules ↔
            y ∈ c.knownSchedules.insert r.scheduleEntities ∧
              y ∉ evictionBatch (c.knownSchedules.insert r.scheduleEntities).elems 0) ∧
          (c.addFeedback r e).knownSchedules.card = 999)) := by
  have hle : c.knownSchedules.card ≤ 2000 :=
    execute_create_invariant (fun c _ => c.knownSchedules.card ≤ 2000)
      (fun _ _ _ _ h hs => card_known_step h hs) (Nat.zero_le _) hx
  have hins := EntitySet.card_insert_le r.scheduleEntities c.knownSchedules
  have hknown := c.knownSchedules_addFeedback r e
  refine ⟨hle, fun h => by rw [hknown, if_pos h], fun h => ?_⟩
  rw [hknown, if_neg (by simp [h])]
  refine ⟨evict_of_card_le, fun hs => ?_⟩
  have h2001 : (c.knownSchedules.insert r.scheduleEntities).card = 2001 := by omega
  refine ⟨h2001, ?_, ?_, fun y => mem_evict_iff hs, card_evict_of_card_eq h2001⟩
  · rw [evictionBatch_zero, List.length_take]
    simp only [EntitySet.card] at h2001
    omega
  · rw [evictionBatch_zero]
    exact (c.knownSchedules.insert _).nodup.sublist (List.take_sublist _ _)

/-- Feedbacks of `0` for the fresh entities `a, …, a + n - 1`, within the cap: each is recorded,
and nothing is evicted. -/
theorem execute_zero_feedbacks (a n : ℕ) {c : AutoScheduleContext ℕ}
    (hc : c.knownSchedules.card + n ≤ 2000) (hfresh : ∀ y ∈ c.knownSchedules, y < a) :
    ∃ c', execute c ((List.range' a n).map fun i => .feedback ⟨i⟩ 0) = some c' ∧
      c'.knownSchedules.card = c.knownSchedules.card + n ∧ ∀ y ∈ c'.knownSchedules, y < a + n := by
  induction n generalizing a c with
  | zero => exact ⟨c, rfl, rfl, hfresh⟩
  | succ n ih =>
    have hcard := EntitySet.card_insert_of_not_mem fun h => lt_irrefl a (hfresh a h)
    have hknown : (c.addFeedback ⟨a⟩ 0).knownSchedules = c.knownSchedules.insert a := by
      have hle : (c.knownSchedules.insert a).card ≤ 2000 := by omega
      rw [knownSchedules_addFeedback, if_neg (by simp [returnsEarly])]
      exact evict_of_card_le hle
    have hfresh' : ∀ y ∈ (c.addFeedback ⟨a⟩ 0).knownSchedules, y < a + 1 := fun y hy => by
      rw [hknown, EntitySet.mem_insert] at hy
      rcases hy with rfl | hy
      exacts [Nat.lt_succ_self y, Nat.lt_succ_of_lt (hfresh y hy)]
    obtain ⟨c', hx, hcard', hlt⟩ := ih (a + 1) (by rw [hknown, hcard]; omega) hfresh'
    refine ⟨c', hx, by rw [hcard', hknown, hcard]; omega, fun y hy => ?_⟩
    have := hlt y hy
    omega

/-- `execute_known_bounded` at an eviction: after feedbacks of `0` for the entities
`0, …, 1999`, a feedback for `2000` brings `known_schedules` to 2001, and the eviction leaves 999. -/
theorem execute_known_bounded_evicts :
    ∃ c, execute (create 1 1 : AutoScheduleContext ℕ)
        ((List.range 2000).map fun i => .feedback ⟨i⟩ 0) = some c ∧
      c.returnsEarly ⟨2000⟩ 0 = false ∧ 2000 < (c.knownSchedules.insert 2000).card ∧
      (c.addFeedback ⟨2000⟩ 0).knownSchedules.card = 999 := by
  obtain ⟨c, hx, hcard, hlt⟩ := execute_zero_feedbacks (c := create 1 1) 0 2000 le_rfl
    fun y hy => absurd hy (EntitySet.not_mem_empty y)
  rw [← List.range_eq_range'] at hx
  have hearly : c.returnsEarly ⟨2000⟩ 0 = false := by simp [returnsEarly]
  have hins : 2000 < (c.knownSchedules.insert 2000).card := by
    rw [EntitySet.card_insert_of_not_mem fun h => lt_irrefl _ (hlt _ h), hcard]
    exact Nat.lt_succ_self _
  exact ⟨c, hx, hearly, hins, ((execute_known_bounded hx ⟨2000⟩ 0).2.2 hearly).2 hins |>.2.2.2.2⟩

/-! ### Known and in-flight entities -/

/-- No entity is both fed back and in flight. -/
def KnownKnowingDisjoint (c : AutoScheduleContext E) : Prop :=
  ∀ x ∈ c.knownSchedules, x ∉ c.knowingSchedules

theorem disjoint_addFeedback {c : AutoScheduleContext E} (h : KnownKnowingDisjoint c)
    (r : ScheduleResult E) (e : ℚ) : KnownKnowingDisjoint (c.addFeedback r e) := by
  rcases addFeedback_sets c r e with ⟨hk, hg⟩ | ⟨hk, hg⟩ <;> rw [KnownKnowingDisjoint, hk, hg]
  · exact h
  · intro x hx hx'
    rw [EntitySet.mem_erase] at hx'
    rcases EntitySet.mem_insert.1 (mem_of_mem_evict hx) with rfl | hx
    exacts [hx'.1 rfl, h x hx hx'.2]

/-- The early return skips the bookkeeping. A feedback of `1` for entity `7`, in flight, that falls
below the top `2` of a full cache of capacity `1`, leaves `7` in flight and not known. -/
theorem addFeedback_below_top_keeps_knowing :
    ∃ c, execute (create 1 1 : AutoScheduleContext ℕ)
        [.feedback ⟨5⟩ 2, .round ⟨fun _ => 7, [1], 1⟩, .feedback ⟨7⟩ 1] = some c ∧
      7 ∈ c.knowingSchedules ∧ 7 ∉ c.knownSchedules := by
  norm_num [execute, step, autoSchedule, pickAndRecord, newCandidates_eq, judgeSchedule,
    judgeScore, selectBest, create, addFeedback, recordKnown]
  decide

omit [DecidableEq E] in
theorem disjoint_clearKnowing (c : AutoScheduleContext E) : KnownKnowingDisjoint c.clearKnowing :=
  fun x _ hx => EntitySet.not_mem_empty x hx

/-- A round keeps the two sets apart exactly when its winner is not already known. -/
theorem disjoint_autoSchedule_iff {c c' : AutoScheduleContext E} {inp : RoundInput E}
    {res : ScheduleResult E} (h : KnownKnowingDisjoint c) (hr : c.autoSchedule inp = some (c', res)) :
    KnownKnowingDisjoint c' ↔ res.scheduleEntities ∉ c.knownSchedules := by
  rw [(autoSchedule_spec hr).1]
  constructor
  · exact fun h' hx => h' _ hx (EntitySet.mem_insert.2 (.inl rfl))
  · intro hres x hx hx'
    rcases EntitySet.mem_insert.1 hx' with rfl | hx'
    exacts [hres hx, h x hx hx']

/-- No round of the run returns an entity that is already known when the round runs. -/
def PicksUnknown : AutoScheduleContext E → List (Op E) → Prop
  | _, [] => True
  | c, op :: ops =>
    (∀ inp c' res, op = .round inp → c.autoSchedule inp = some (c', res) →
      res.scheduleEntities ∉ c.knownSchedules) ∧ ∀ c', step c op = some c' → PicksUnknown c' ops

theorem disjoint_execute {ops : List (Op E)} {c c' : AutoScheduleContext E}
    (h : KnownKnowingDisjoint c) (hpick : PicksUnknown c ops) (hx : execute c ops = some c') :
    KnownKnowingDisjoint c' := by
  induction ops generalizing c with
  | nil => exact Option.some.inj hx ▸ h
  | cons op ops ih =>
    obtain ⟨c1, h1, hx⟩ := Option.bind_eq_some.1 hx
    refine ih ?_ (hpick.2 c1 h1) hx
    obtain ⟨r, e, rfl, rfl⟩ | ⟨inp, res, rfl, hr⟩ | ⟨rfl, rfl⟩ := step_eq_some h1
    · exact disjoint_addFeedback h r e
    · exact (disjoint_autoSchedule_iff h hr).2 (hpick.1 inp c1 res rfl hr)
    · exact disjoint_clearKnowing c

/-- **When known and in-flight entities overlap.** Along every run from a fresh context in which no
round returns an already-known entity, `known_schedules` and `knowing_schedules` stay disjoint;
and a round on a disjoint state makes them overlap exactly when its winner is already known. -/
theorem known_knowing_disjoint_unless_known_winner :
    (∀ {topk newTrial : ℕ} {ops : List (Op E)} {c : AutoScheduleContext E},
      execute (create topk newTrial) ops = some c → PicksUnknown (create topk newTrial) ops →
        KnownKnowingDisjoint c) ∧
    (∀ {c c' : AutoScheduleContext E} {inp : RoundInput E} {res : ScheduleResult E},
      KnownKnowingDisjoint c → c.autoSchedule inp = some (c', res) →
        (KnownKnowingDisjoint c' ↔ res.scheduleEntities ∉ c.knownSchedules)) :=
  ⟨fun hx hpick => disjoint_execute (fun x hx => absurd hx (EntitySet.not_mem_empty x)) hpick hx,
    disjoint_autoSchedule_iff⟩

/-- An instance of `known_knowing_disjoint_unless_known_winner`: a feedback, then a round whose
only candidate is new. -/
theorem known_knowing_disjoint_after_new_winner :
    ∃ c, execute (create 1 1 : AutoScheduleContext ℕ)
        [.feedback ⟨5⟩ 2, .round ⟨fun _ => 7, [1], 1⟩] = some c ∧ KnownKnowingDisjoint c := by
  obtain ⟨c, hx⟩ : ∃ c, execute (create 1 1 : AutoScheduleContext ℕ)
      [.feedback ⟨5⟩ 2, .round ⟨fun _ => 7, [1], 1⟩] = some c := by
    norm_num [execute, step, autoSchedule, pickAndRecord, newCandidates_eq, judgeSchedule,
      judgeScore, selectBest, create, addFeedback, recordKnown]
  refine ⟨c, hx, known_knowing_disjoint_unless_known_winner.1 hx
    ⟨fun _ _ _ h => (nomatch h), ?_⟩⟩
  rintro _ ⟨⟩
  refine ⟨?_, fun _ _ => trivial⟩
  rintro _ _ res ⟨⟩ hr
  obtain ⟨_, hres⟩ := mem_newCandidates (autoSchedule_spec hr).2
  dsimp only at hres
  rw [hres]
  decide

/-- A round can return an entity that is already known: with `7` fed back, a batch `[8, 7]` whose
second candidate costs less puts `7` in flight while it is known. -/
theorem execute_known_knowing_overlap :
    ∃ c, execute (create 1 2 : AutoScheduleContext ℕ)
        [.feedback ⟨7⟩ 1, .round ⟨fun i => if i = 0 then 8 else 7, [2, 1], 1⟩] = some c ∧
      7 ∈ c.knownSchedules ∧ 7 ∈ c.knowingSchedules := by
  norm_num [execute, step, autoSchedule, pickAndRecord, newCandidates_eq, judgeSchedule,
    judgeScore, selectBest, create, addFeedback, recordKnown]
  exact ⟨_, ⟨by decide, _, 7, by decide, rfl, rfl⟩, by decide⟩

end AutoSchedule

end Amos
