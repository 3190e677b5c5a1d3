import Amos.AutoSchedule.Run

/-!
# Rounds and feedbacks interleaved on one key

`schedule_for` hands `schedule_func` to the thread pool, and `feedback_for` may be called from
any thread at any time; nothing in `auto_schedule.cc` serialises the two on a key's context. Here
each call is a thread with its own program counter, and any thread may take its next atomic step:

* a round takes three steps, its whole drain loop, its whole restore loop, and the rest of the
  round (`pickAndRecord`, ending in the `knowing_schedules` insert);
* a feedback takes one step, the whole `add_feedback`.

A feedback that lands between a round's drain and its restore finds the heap empty, is pushed, and
the restore then puts every drained entry back on top of it: the heap can outgrow `topk`
(`interleaved_heap_exceeds_topk`). What survives every interleaving is the outranking invariant,
for the heap together with what the rounds in flight have drained: nothing is invented or
duplicated, and whatever is missing is outranked `topk` times over; once every call is done the
heap contains the top `topk`, though it may hold more (`interleaved_heap_outranked`).
-/

namespace Amos

namespace AutoSchedule

variable {E : Type} [DecidableEq E]

open AutoScheduleContext

/-- Where a `schedule_func` round stands. -/
inductive RoundPc (E : Type)
  | start
  /-- After the drain loop, holding `reverse_sort`. -/
  | drained (reverseSort : List (EvaluatedScheduleResult E))
  | restored
  | done

/-- A call in flight against one key's context. -/
inductive Call (E : Type)
  /-- A round dispatched by `schedule_for`. -/
  | round (inp : RoundInput E) (pc : RoundPc E)
  /-- A `feedback_for` call, and whether it has run. -/
  | feedback (scheduleResult : ScheduleResult E) (evaluation : ℚ) (done : Bool)

/-- One atomic step of one call, on the shared context. -/
inductive CallStep : Call E × AutoScheduleContext E → Call E × AutoScheduleContext E → Prop
  | drain {inp c} : CallStep (.round inp .start, c)
      (.round inp (.drained c.topkSchedules.drain), { c with topkSchedules := .empty })
  | restore {inp reverseSort c} : CallStep (.round inp (.drained reverseSort), c)
      (.round inp .restored, { c with topkSchedules := c.topkSchedules.restore reverseSort })
  | finish {inp c c' res} (h : c.pickAndRecord inp = some (c', res)) :
      CallStep (.round inp .restored, c) (.round inp .done, c')
  | feedback {r e c} : CallStep (.feedback r e false, c) (.feedback r e true, c.addFeedback r e)

/-- The interleaving: any call takes its next step. -/
inductive Step : List (Call E) × AutoScheduleContext E → List (Call E) × AutoScheduleContext E → Prop
  | call {t t' c c'} (pre post : List (Call E)) (h : CallStep (t, c) (t', c')) :
      Step (pre ++ t :: post, c) (pre ++ t' :: post, c')

namespace Call

/-- The positive evaluation a call has fed back. -/
def fed : Call E → Multiset ℚ
  | .feedback _ e true => if 0 < e then {e} else 0
  | _ => 0

/-- The evaluations a round holds aside between its drain and its restore. -/
def held : Call E → Multiset ℚ
  | .round _ (.drained reverseSort) => (reverseSort.map (·.evaluation) : Multiset ℚ)
  | _ => 0

/-- Not yet started. -/
def Pending : Call E → Prop
  | .round _ pc => pc = .start
  | .feedback _ _ done => done = false

/-- Finished. -/
def Done : Call E → Prop
  | .round _ pc => pc = .done
  | .feedback _ _ done => done = true

omit [DecidableEq E] in
theorem fed_of_pending {t : Call E} (h : t.Pending) : t.fed = 0 := by
  rcases t with ⟨_, pc⟩ | ⟨_, _, done⟩
  · rfl
  · obtain rfl : done = false := h
    rfl

omit [DecidableEq E] in
theorem held_of_pending {t : Call E} (h : t.Pending) : t.held = 0 := by
  rcases t with ⟨_, pc⟩ | ⟨_, _, _⟩
  · obtain rfl : pc = .start := h
    rfl
  · rfl

omit [DecidableEq E] in
theorem held_of_done {t : Call E} (h : t.Done) : t.held = 0 := by
  rcases t with ⟨_, pc⟩ | ⟨_, _, _⟩
  · simp only [Done] at h
    simp [held, h]
  · rfl

end Call

/-- The sum of a per-call quantity over a pool of calls. -/
def total (f : Call E → Multiset ℚ) (calls : List (Call E)) : Multiset ℚ := (calls.map f).sum

omit [DecidableEq E] in
theorem total_eq_zero {f : Call E → Multiset ℚ} {calls : List (Call E)}
    (h : ∀ t ∈ calls, f t = 0) : total f calls = 0 :=
  List.sum_eq_zero fun x hx => by
    obtain ⟨t, ht, rfl⟩ := List.mem_map.1 hx
    exact h t ht

omit [DecidableEq E] in
theorem total_split (f : Call E → Multiset ℚ) (pre post : List (Call E)) (t : Call E) :
    total f (pre ++ t :: post) = f t + (total f pre + total f post) := by
  simp only [total, List.map_append, List.map_cons, List.sum_append, List.sum_cons]
  abel

/-- What every interleaving keeps: the heap together with the entries held aside by rounds in
flight outranks everything fed back, at a fixed capacity. -/
def Held (topk : ℕ) (s : List (Call E) × AutoScheduleContext E) : Prop :=
  s.2.topk = topk ∧
    Outranked topk (total Call.fed s.1) (s.2.topkSchedules.evals + total Call.held s.1)

/-- One call's step keeps the invariant, whatever the others hold aside (`R`) or fed (`F`). -/
theorem callStep_outranked {t t' : Call E} {c c' : AutoScheduleContext E} {F R : Multiset ℚ}
    (hk : 0 < c.topk) (hs : CallStep (t, c) (t', c'))
    (h : Outranked c.topk (t.fed + F) (c.topkSchedules.evals + (t.held + R))) :
    c'.topk = c.topk ∧ Outranked c.topk (t'.fed + F) (c'.topkSchedules.evals + (t'.held + R)) := by
  cases hs with
  | drain =>
    refine ⟨rfl, ?_⟩
    simpa only [Call.fed, Call.held, TopkHeap.evals_empty, zero_add] using h
  | restore =>
    refine ⟨rfl, ?_⟩
    simpa [Call.fed, Call.held, TopkHeap.evals_restore, add_assoc] using h
  | finish hr =>
    rw [(pickAndRecord_spec hr).1]
    simpa [Call.fed, Call.held] using h
  | @feedback r e c =>
    refine ⟨topk_addFeedback c r e, ?_⟩
    have := outranked_addFeedback hk (by simpa [Call.fed, Call.held] using h) r e
    simpa [Call.fed, Call.held, fedOf] using this

theorem held_step {topk : ℕ} (hk : 0 < topk) {s s' : List (Call E) × AutoScheduleContext E}
    (h : Held topk s) (hs : Step s s') : Held topk s' := by
  cases hs with
  | call pre post hstep =>
    simp only [Held, total_split] at h ⊢
    obtain ⟨rfl, hout⟩ := h
    exact callStep_outranked hk hstep hout

/-- **What every interleaving keeps.** Start from a fresh context of capacity `topk ≥ 1` and any
pool of calls not yet started, and take their steps in any order. The heap together with what
rounds in flight have drained holds only positive evaluations fed back, each at most as often as
it was fed back, and every positive evaluation fed back that it misses is outranked by at least
`topk` of its entries. Once every call is done, the heap alone does, and so it contains the
`min (P, topk)` largest of the `P` positive evaluations fed back. -/
theorem interleaved_heap_outranked {topk newTrial : ℕ} (hk : 0 < topk) {calls : List (Call E)}
    (hpending : ∀ t ∈ calls, t.Pending) {s : List (Call E) × AutoScheduleContext E}
    (hs : Relation.ReflTransGen Step (calls, create topk newTrial) s) :
    Outranked topk (total Call.fed s.1) (s.2.topkSchedules.evals + total Call.held s.1) ∧
      ((∀ t ∈ s.1, t.Done) → Outranked topk (total Call.fed s.1) s.2.topkSchedules.evals ∧
        ∃ T ≤ s.2.topkSchedules.evals, IsTopK topk (total Call.fed s.1) T) := by
  have h0 : Held topk (calls, (create topk newTrial : AutoScheduleContext E)) := by
    refine ⟨rfl, ?_⟩
    rw [total_eq_zero fun t ht => Call.fed_of_pending (hpending t ht),
      total_eq_zero fun t ht => Call.held_of_pending (hpending t ht)]
    exact outranked_zero
  have hheld : Held topk s := by
    induction hs with
    | refl => exact h0
    | tail _ hstep ih => exact held_step hk ih hstep
  refine ⟨hheld.2, fun hdone => ?_⟩
  have hout := hheld.2
  rw [total_eq_zero fun t ht => Call.held_of_done (hdone t ht), add_zero] at hout
  exact ⟨hout, hout.exists_isTopK⟩

/-- A feedback lands between a round's drain and its restore. With capacity `1`: feedback `2`,
the round drains `[2]`, feedback `1` finds the heap empty and is pushed, the restore adds `2`
back, and the round finishes, leaving two entries. -/
theorem feedback_between_drain_and_restore :
    ∃ s, Relation.ReflTransGen Step
        ([.feedback ⟨5⟩ 2 false, .round ⟨fun _ => 9, [0], 1⟩ .start, .feedback ⟨7⟩ 1 false],
          (create 1 1 : AutoScheduleContext ℕ)) s ∧
      (∀ t ∈ s.1, t.Done) ∧ s.2.topkSchedules.size = 2 := by
  let c1 := (create 1 1 : AutoScheduleContext ℕ).addFeedback ⟨5⟩ 2
  let c3 := ({ c1 with topkSchedules := .empty } : AutoScheduleContext ℕ).addFeedback ⟨7⟩ 1
  let c4 : AutoScheduleContext ℕ :=
    { c3 with topkSchedules := c3.topkSchedules.restore c1.topkSchedules.drain }
  obtain ⟨⟨c5, res⟩, hfin⟩ : ∃ p, c4.pickAndRecord ⟨fun _ => 9, [0], 1⟩ = some p := by
    simp only [pickAndRecord, newCandidates_eq]
    exact ⟨_, rfl⟩
  refine ⟨_, ((((Relation.ReflTransGen.single (Step.call [] _ CallStep.feedback)).tail
    (Step.call [_] _ CallStep.drain)).tail (Step.call [_, _] [] CallStep.feedback)).tail
    (Step.call [_] _ CallStep.restore)).tail (Step.call [_] _ (CallStep.finish hfin)), ?_, ?_⟩
  · simp [Call.Done]
  · rw [(pickAndRecord_spec hfin).1]
    show c4.topkSchedules.size = 2
    simp only [c4, c3, c1]
    decide

/-- **The heap outgrows `topk`.** Some interleaving of two feedbacks and one round on a fresh
context of capacity `1` ends, every call done, with two entries in the heap. -/
theorem interleaved_heap_exceeds_topk :
    ∃ s, Relation.ReflTransGen Step
        ([.feedback ⟨5⟩ 2 false, .round ⟨fun _ => 9, [0], 1⟩ .start, .feedback ⟨7⟩ 1 false],
          (create 1 1 : AutoScheduleContext ℕ)) s ∧
      (∀ t ∈ s.1, t.Done) ∧ 1 < s.2.topkSchedules.size := by
  obtain ⟨s, hs, hdone, hsize⟩ := feedback_between_drain_and_restore
  exact ⟨s, hs, hdone, by omega⟩

/-- `interleaved_heap_outranked` at the end of that interleaving. -/
theorem interleaved_heap_outranked_race :
    ∃ s, Relation.ReflTransGen Step
        ([.feedback ⟨5⟩ 2 false, .round ⟨fun _ => 9, [0], 1⟩ .start, .feedback ⟨7⟩ 1 false],
          (create 1 1 : AutoScheduleContext ℕ)) s ∧
      Outranked 1 (total Call.fed s.1) s.2.topkSchedules.evals ∧
        ∃ T ≤ s.2.topkSchedules.evals, IsTopK 1 (total Call.fed s.1) T := by
  obtain ⟨s, hs, hdone, -⟩ := feedback_between_drain_and_restore
  exact ⟨s, hs, (interleaved_heap_outranked (by decide)
    (by simp [Call.Pending]) hs).2 hdone⟩

end AutoSchedule

end Amos
