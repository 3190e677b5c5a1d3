import Amos.AutoSchedule.Run

/-!
# The `contexts` map under concurrent calls

`AutoScheduler::schedule_func` and `AutoScheduler::feedback_for` (lines 236–247 and 285–292 of
`auto_schedule.cc`) both begin with a check-then-insert on the map `contexts`,

```
if (contexts.find(key) == contexts.end()) {
  contexts[key] = AutoScheduleContext(key, subgraph, target, topk, new_trial, policy);
}
```

and nothing guards the map. `AutoScheduleContext` is a reference-counted handle: every insertion
builds a fresh context object and points the key at it; `feedback_for` applies `add_feedback` to
the object the key points at when it reaches `contexts[key]`, and `schedule_func` copies the handle
(`AutoScheduleContext context = contexts[key]`) and runs its round on that object.
`clear_schedule_cache_for` finds the key and, if present, clears the knowing set of the object the
key points at.

`KeySlot` is one key's entry: the objects ever built for the key, the one the key points at, and
two ghost records, how many calls' `find` saw the key absent and went on to insert, and the
object each update went to. A call's `find`, its insertion, its `contexts[key]` access and, for a
round, the round on its handle are separate atomic steps (`MapCallStep`), and any call may take
its next step (`MapStep`). The round is one step here; how its drain and restore interleave with
feedbacks is the subject of `Amos.AutoSchedule.Interleaving`.

Two first-time calls whose `find`s both run before either inserts both insert, and the feedback
the first applied to its object is lost when the second points the key at a fresh one
(`contexts_lost_update`). In every interleaving each object is a sequential run of the updates
that reached it (`slotInv_reachable`), the key gets one object per call whose `find` saw it
absent, and when at most one call saw it absent every update went to the object the key points
at, whose state is then the sequential run of all the updates in the order they took effect
(`contexts_single_install`).

## Main results

* `slotInv_step` — what every step keeps
* `contexts_single_install`
* `contexts_lost_update`
-/

namespace Amos

namespace AutoSchedule

variable {E : Type}

/-- Where a call on the key stands. -/
inductive MapPc
  /-- About to run `contexts.find(key)`. -/
  | find
  /-- Its `find` saw the key absent: about to insert a fresh context. -/
  | insert
  /-- About to reach `contexts[key]`. -/
  | lookup
  /-- A round holding the handle `context = contexts[key]` to the object `obj`. -/
  | holding (obj : ℕ)
  | done
  deriving DecidableEq

/-- A call on the key, `feedback_for`, `schedule_func` or `clear_schedule_cache_for`, and where it
stands. -/
structure MapCall (E : Type) where
  op : Op E
  pc : MapPc

/-- One key's entry of `contexts`, with every object ever built for it. -/
structure KeySlot (E : Type) where
  /-- The context objects built for the key, in the order of the insertions. -/
  objects : List (AutoScheduleContext E)
  /-- The object the key points at; `none` while the key is absent. -/
  installed : Option ℕ
  /-- Ghost: how many calls' `find` saw the key absent and went on to insert. -/
  absentFinds : ℕ
  /-- Ghost: each update that took effect, with the object it went to, in order. -/
  applied : List (ℕ × Op E)

namespace KeySlot

/-- The key before any call. -/
def empty : KeySlot E := ⟨[], none, 0, []⟩

/-- The context `contexts[key]` reaches. -/
def current (s : KeySlot E) : Option (AutoScheduleContext E) := s.installed.bind (s.objects[·]?)

/-- Update object `o` to `c'` by the operation `op`. -/
def apply (s : KeySlot E) (o : ℕ) (c' : AutoScheduleContext E) (op : Op E) : KeySlot E :=
  { s with objects := s.objects.set o c', applied := s.applied ++ [(o, op)] }

/-- The updates that reached object `o`, in order. -/
def opsAt (s : KeySlot E) (o : ℕ) : List (Op E) := (s.applied.filter (·.1 = o)).map Prod.snd

variable (s : KeySlot E) (o : ℕ) (c' : AutoScheduleContext E) (op : Op E)

@[simp] theorem objects_apply : (s.apply o c' op).objects = s.objects.set o c' := rfl

@[simp] theorem installed_apply : (s.apply o c' op).installed = s.installed := rfl

@[simp] theorem absentFinds_apply : (s.apply o c' op).absentFinds = s.absentFinds := rfl

@[simp] theorem applied_apply : (s.apply o c' op).applied = s.applied ++ [(o, op)] := rfl

@[simp] theorem opsAt_apply (o' : ℕ) :
    (s.apply o c' op).opsAt o' = s.opsAt o' ++ if o = o' then [op] else [] := by
  by_cases h : o = o' <;> simp [opsAt, apply, h]

end KeySlot

variable [DecidableEq E]

open AutoScheduleContext

/-- One atomic step of one call on the key, for an `AutoScheduler` with `topk` and `new_trial`. -/
inductive MapCallStep (topk newTrial : ℕ) : MapCall E × KeySlot E → MapCall E × KeySlot E → Prop
  /-- `find` sees the key absent, and a `feedback_for` or `schedule_func` goes on to insert. -/
  | findAbsent {op s} (h : s.installed = none) (hop : op ≠ .clear) :
      MapCallStep topk newTrial (⟨op, .find⟩, s)
        (⟨op, .insert⟩, { s with absentFinds := s.absentFinds + 1 })
  /-- `clear_schedule_cache_for` on an absent key does nothing. -/
  | clearAbsent {s} (h : s.installed = none) :
      MapCallStep topk newTrial (⟨.clear, .find⟩, s) (⟨.clear, .done⟩, s)
  | findPresent {op s o} (h : s.installed = some o) :
      MapCallStep topk newTrial (⟨op, .find⟩, s) (⟨op, .lookup⟩, s)
  /-- `contexts[key] = AutoScheduleContext(...)`: build a fresh context and point the key at it. -/
  | insert {op s} :
      MapCallStep topk newTrial (⟨op, .insert⟩, s)
        (⟨op, .lookup⟩, { s with objects := s.objects ++ [create topk newTrial],
                                 installed := some s.objects.length })
  /-- `contexts[key].add_feedback(schedule_result, evaluation)`. -/
  | feedback {r e s o c} (h : s.installed = some o) (hc : s.objects[o]? = some c) :
      MapCallStep topk newTrial (⟨.feedback r e, .lookup⟩, s)
        (⟨.feedback r e, .done⟩, s.apply o (c.addFeedback r e) (.feedback r e))
  /-- `AutoScheduleContext context = contexts[key]`. -/
  | handle {inp s o} (h : s.installed = some o) :
      MapCallStep topk newTrial (⟨.round inp, .lookup⟩, s) (⟨.round inp, .holding o⟩, s)
  /-- `auto_schedule(subgraph, context, results)` on the handle. -/
  | round {inp s o c c' res} (hc : s.objects[o]? = some c)
      (hr : c.autoSchedule inp = some (c', res)) :
      MapCallStep topk newTrial (⟨.round inp, .holding o⟩, s)
        (⟨.round inp, .done⟩, s.apply o c' (.round inp))
  /-- `auto context = contexts[key]; context->knowing_schedules.clear();` -/
  | clear {s o c} (h : s.installed = some o) (hc : s.objects[o]? = some c) :
      MapCallStep topk newTrial (⟨.clear, .lookup⟩, s) (⟨.clear, .done⟩, s.apply o c.clearKnowing .clear)

/-- The interleaving: any call takes its next step. -/
inductive MapStep (topk newTrial : ℕ) :
    List (MapCall E) × KeySlot E → List (MapCall E) × KeySlot E → Prop
  | call {t t' s s'} (pre post : List (MapCall E)) (h : MapCallStep topk newTrial (t, s) (t', s')) :
      MapStep topk newTrial (pre ++ t :: post, s) (pre ++ t' :: post, s')

/-! ### What every step keeps -/

/-- `1` for a call between its `find` and its insertion. -/
def MapCall.inserting (t : MapCall E) : ℕ := if t.pc = .insert then 1 else 0

/-- How many calls of a pool are between their `find` and their insertion. -/
def inserting (calls : List (MapCall E)) : ℕ := (calls.map MapCall.inserting).sum

omit [DecidableEq E] in
theorem inserting_split (pre post : List (MapCall E)) (t : MapCall E) :
    inserting (pre ++ t :: post) = t.inserting + (inserting pre + inserting post) := by
  simp only [inserting, List.map_append, List.map_cons, List.sum_append, List.sum_cons]
  omega

omit [DecidableEq E] in
theorem inserting_eq_zero {calls : List (MapCall E)} (h : ∀ t ∈ calls, t.pc ≠ .insert) :
    inserting calls = 0 :=
  List.sum_eq_zero fun x hx => by
    obtain ⟨t, ht, rfl⟩ := List.mem_map.1 hx
    simp [MapCall.inserting, h t ht]

/-- A run of `ops` appended with one more operation. -/
theorem execute_concat (c : AutoScheduleContext E) (ops : List (Op E)) (op : Op E) :
    execute c (ops ++ [op]) = (execute c ops).bind fun c' => step c' op := by
  induction ops generalizing c with
  | nil => simp [execute]
  | cons op' ops ih => simp [execute, ih, Option.bind_assoc]

/-- The key's entry with `n` calls between their `find` and their insertion. -/
structure SlotOk (topk newTrial n : ℕ) (s : KeySlot E) : Prop where
  /-- One object per call whose `find` saw the key absent and that has inserted since. -/
  count : s.objects.length + n = s.absentFinds
  /-- The key points at the object built last. -/
  installed : ∀ o, s.installed = some o ↔ o + 1 = s.objects.length
  /-- Every update went to an object that was built. -/
  applied : ∀ p ∈ s.applied, p.1 < s.objects.length
  /-- Each object is the sequential run, from a fresh context, of the updates that reached it. -/
  runs : ∀ o c, s.objects[o]? = some c → execute (create topk newTrial) (s.opsAt o) = some c

variable {topk newTrial n : ℕ}

/-- An update of an object by one operation keeps the entry consistent. -/
theorem SlotOk.apply {s : KeySlot E} {o : ℕ} {c c' : AutoScheduleContext E} {op : Op E}
    (h : SlotOk topk newTrial n s) (hc : s.objects[o]? = some c) (hop : step c op = some c') :
    SlotOk topk newTrial n (s.apply o c' op) := by
  have ho : o < s.objects.length := (List.getElem?_eq_some_iff.1 hc).1
  refine ⟨by simpa using h.count, by simpa using h.installed, fun p hp => ?_, fun o' c'' hc'' => ?_⟩
  · rcases List.mem_append.1 hp with hp | hp
    · simpa using h.applied p hp
    · simpa [List.mem_singleton.1 hp] using ho
  · by_cases ho' : o = o'
    · subst ho'
      simp only [KeySlot.objects_apply, List.getElem?_set_self ho, Option.some_inj] at hc''
      simp [execute_concat, h.runs o c hc, hop, hc'']
    · rw [KeySlot.objects_apply, List.getElem?_set_ne ho'] at hc''
      simpa [ho'] using h.runs o' c'' hc''

/-- An insertion keeps the entry consistent, with one call fewer about to insert. -/
theorem SlotOk.insert {s : KeySlot E} (h : SlotOk topk newTrial (n + 1) s) :
    SlotOk topk newTrial n
      { s with objects := s.objects ++ [create topk newTrial], installed := some s.objects.length } := by
  refine ⟨by simpa [Nat.add_right_comm] using h.count, fun o => by simp [eq_comm], fun p hp => ?_,
    fun o c hc => ?_⟩
  · simpa using Nat.lt_succ_of_lt (h.applied p hp)
  · by_cases ho : o < s.objects.length
    · rw [List.getElem?_append_left ho] at hc
      exact h.runs o c hc
    · obtain rfl : o = s.objects.length := by
        have := (List.getElem?_eq_some_iff.1 hc).1
        simp only [List.length_append, List.length_singleton] at this
        omega
      rw [List.getElem?_concat_length, Option.some_inj] at hc
      have : s.applied.filter (·.1 = s.objects.length) = [] :=
        List.filter_eq_nil_iff.2 fun p hp => by simpa using (h.applied p hp).ne
      simp [KeySlot.opsAt, this, ← hc, execute]

/-- A `find` that sees the key absent, with one call more about to insert. -/
theorem SlotOk.findAbsent {s : KeySlot E} (h : SlotOk topk newTrial n s) :
    SlotOk topk newTrial (n + 1) { s with absentFinds := s.absentFinds + 1 } :=
  ⟨by simpa [← Nat.add_assoc] using h.count, h.installed, h.applied, h.runs⟩

/-- **What one call's step keeps**, whatever `n` other calls are about to insert. -/
theorem slotOk_mapCallStep {t t' : MapCall E} {s s' : KeySlot E}
    (hs : MapCallStep topk newTrial (t, s) (t', s')) (h : SlotOk topk newTrial (t.inserting + n) s) :
    SlotOk topk newTrial (t'.inserting + n) s' := by
  cases hs <;> simp only [MapCall.inserting, reduceCtorEq, if_false, if_true, Nat.zero_add] at h ⊢
  case findAbsent => exact Nat.add_comm n 1 ▸ h.findAbsent
  case clearAbsent | findPresent | handle => exact h
  case insert => exact (Nat.add_comm 1 n ▸ h).insert
  case feedback hc => exact h.apply hc rfl
  case round hr hc => exact h.apply hc (by simp [step, hr])
  case clear hc => exact h.apply hc rfl

/-- What every interleaving keeps. -/
def SlotInv (topk newTrial : ℕ) (st : List (MapCall E) × KeySlot E) : Prop :=
  SlotOk topk newTrial (inserting st.1) st.2

theorem slotInv_step {st st' : List (MapCall E) × KeySlot E} (h : SlotInv topk newTrial st)
    (hs : MapStep topk newTrial st st') : SlotInv topk newTrial st' := by
  cases hs with
  | call pre post hstep =>
    rw [SlotInv, inserting_split] at h ⊢
    exact slotOk_mapCallStep hstep h

/-- **Every reachable entry is consistent**: from a key no call has reached and a pool of calls
not yet started, whatever the interleaving. -/
theorem slotInv_reachable {calls : List (MapCall E)} (hfresh : ∀ t ∈ calls, t.pc = .find)
    {st : List (MapCall E) × KeySlot E}
    (hs : Relation.ReflTransGen (MapStep topk newTrial) (calls, .empty) st) :
    SlotInv topk newTrial st := by
  induction hs with
  | refl =>
    have : inserting calls = 0 := inserting_eq_zero fun t ht => by simp [hfresh t ht]
    refine ⟨by simp [this, KeySlot.empty], fun o => by simp [KeySlot.empty], by simp [KeySlot.empty],
      fun o c hc => by simp [KeySlot.empty] at hc⟩
  | tail _ hstep ih => exact slotInv_step ih hstep

/-! ### One object per absent `find` -/

/-- **At most one object, and no lost update, when one `find` sees the key absent.** Start from a
key no call has reached and a pool of calls not yet started, and take their steps in any order.
The key never has more objects than calls whose `find` saw it absent, and has exactly as many once
every call is done. When at most one call's `find` saw the key absent, at most one object is ever
built, every update went to the object the key points at, and once the key is present the context
it reaches is the sequential run, from a fresh context, of all the updates in the order they took
effect. -/
theorem contexts_single_install {calls : List (MapCall E)} (hfresh : ∀ t ∈ calls, t.pc = .find)
    {st : List (MapCall E) × KeySlot E}
    (hs : Relation.ReflTransGen (MapStep topk newTrial) (calls, .empty) st) :
    st.2.objects.length ≤ st.2.absentFinds ∧
      ((∀ t ∈ st.1, t.pc = .done) → st.2.objects.length = st.2.absentFinds) ∧
      (st.2.absentFinds ≤ 1 → st.2.objects.length ≤ 1 ∧
        (∀ p ∈ st.2.applied, st.2.installed = some p.1) ∧
        (st.2.installed.isSome →
          st.2.current = execute (create topk newTrial) (st.2.applied.map Prod.snd))) := by
  obtain ⟨hcount, hinst, happ, hruns⟩ := slotInv_reachable hfresh hs
  have to_installed : st.2.absentFinds ≤ 1 → ∀ p ∈ st.2.applied, st.2.installed = some p.1 :=
    fun h1 p hp => (hinst p.1).2 (by have := happ p hp; omega)
  refine ⟨by omega, fun hdone => ?_, fun h1 => ⟨by omega, to_installed h1, fun hsome => ?_⟩⟩
  · have : inserting st.1 = 0 := inserting_eq_zero fun t ht => by simp [hdone t ht]
    omega
  · obtain ⟨o, ho⟩ := Option.isSome_iff_exists.1 hsome
    obtain ⟨c, hc⟩ : ∃ c, st.2.objects[o]? = some c :=
      ⟨_, List.getElem?_eq_getElem (by have := (hinst o).1 ho; omega)⟩
    have hall : st.2.opsAt o = st.2.applied.map Prod.snd := by
      rw [KeySlot.opsAt, List.filter_eq_self.2 fun p hp => by
        simpa [ho] using (to_installed h1 p hp).symm]
    rw [KeySlot.current, ho, Option.some_bind, hc, ← hall, hruns o c hc]

/-- Two feedbacks on a fresh key, the second's `find` after the first's insertion: one object,
both feedbacks reach it, and the key's context is the run of both. -/
theorem contexts_single_install_serial :
    ∃ st, Relation.ReflTransGen (MapStep 1 1)
        ([⟨.feedback ⟨5⟩ 2, .find⟩, ⟨.feedback ⟨7⟩ 1, .find⟩], (KeySlot.empty : KeySlot ℕ)) st ∧
      st.2.objects.length ≤ 1 ∧ (∀ p ∈ st.2.applied, st.2.installed = some p.1) ∧
      (st.2.installed.isSome →
        st.2.current = execute (create 1 1) (st.2.applied.map Prod.snd)) := by
  have hs : Relation.ReflTransGen (MapStep 1 1)
      ([⟨.feedback ⟨5⟩ 2, .find⟩, ⟨.feedback ⟨7⟩ 1, .find⟩], (KeySlot.empty : KeySlot ℕ)) _ :=
    ((((Relation.ReflTransGen.single
    (MapStep.call [] _ (MapCallStep.findAbsent (by rfl) (by simp)))).tail
    (MapStep.call [] _ MapCallStep.insert)).tail
    (MapStep.call [_] [] (MapCallStep.findPresent (by rfl)))).tail
    (MapStep.call [] _ (MapCallStep.feedback (by rfl) (by rfl)))).tail
    (MapStep.call [_] [] (MapCallStep.feedback (by rfl) (by rfl)))
  exact ⟨_, hs, (contexts_single_install (by simp) hs).2.2 (by decide)⟩

/-- **A lost update.** Two feedbacks on a fresh key, both `find`s before either insertion: two
objects are built, the key ends on the second, and the first feedback went to the first object
and is missing from the context the key reaches. -/
theorem contexts_lost_update :
    ∃ st, Relation.ReflTransGen (MapStep 1 1)
        ([⟨.feedback ⟨5⟩ 2, .find⟩, ⟨.feedback ⟨7⟩ 1, .find⟩], (KeySlot.empty : KeySlot ℕ)) st ∧
      (∀ t ∈ st.1, t.pc = .done) ∧ st.2.objects.length = 2 ∧
      (∃ p ∈ st.2.applied, st.2.installed ≠ some p.1) ∧
      ∃ c, st.2.current = some c ∧ 5 ∉ c.knownSchedules := by
  have hs : Relation.ReflTransGen (MapStep 1 1)
      ([⟨.feedback ⟨5⟩ 2, .find⟩, ⟨.feedback ⟨7⟩ 1, .find⟩], (KeySlot.empty : KeySlot ℕ)) _ :=
    (((((Relation.ReflTransGen.single
    (MapStep.call [] _ (MapCallStep.findAbsent (by rfl) (by simp)))).tail
    (MapStep.call [_] [] (MapCallStep.findAbsent (by rfl) (by simp)))).tail
    (MapStep.call [] _ MapCallStep.insert)).tail
    (MapStep.call [] _ (MapCallStep.feedback (by rfl) (by rfl)))).tail
    (MapStep.call [_] [] MapCallStep.insert)).tail
    (MapStep.call [_] [] (MapCallStep.feedback (by rfl) (by rfl)))
  exact ⟨_, hs, by decide, rfl, ⟨_, List.mem_cons_self _ _, by decide⟩, _, rfl, by decide⟩

end AutoSchedule

end Amos
