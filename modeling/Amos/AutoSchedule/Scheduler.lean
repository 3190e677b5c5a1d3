import Amos.AutoSchedule.Run

/-!
# The scheduler: one context per key

`AutoScheduler` keeps the map `contexts` from subgraph keys to contexts, and builds a key's
context lazily, with its own `topk` and `new_trial`. Three calls reach the map:

* `schedule_func(key, subgraph, target)` (lines 238–248 of `auto_schedule.cc`) builds the key's
  context if it is absent and runs one round of `auto_schedule` on it;
* `feedback_for(key, …)` (lines 285–324) builds it if absent and applies `add_feedback`;
* `clear_schedule_cache_for(key)` (lines 327–332) empties the knowing set of the key's context if
  the key has one, and builds nothing.

Run one after another, a call reads and writes its own key's entry and nothing else, so the
scheduler is the product of one *slot* per key (`run_eq_some_iff`): whatever the order in which
the calls on different keys come, only the order of each key's own calls matters (`run_congr`).
A slot stays empty until its first `schedule_func` or `feedback_for`, and from then on holds the
sequential run of `Amos.AutoSchedule.Run` on a fresh context (`slotRun_none`). From a scheduler
with no context, every key therefore ends with `execute` of its own calls on
`create topk new_trial`, or with no context if it only ever saw `clear_schedule_cache_for`
(`run_init_contexts`), and a run fails exactly when one key's own run does (`run_init_isSome_iff`).
Every invariant of the sequential run then holds key by key, with the evaluations fed back on that
key alone (`run_init_invariant`): each key's top-k cache keeps that key's `k` best evaluations
(`run_init_topk_largest`), and each key's `known_schedules` stays within 2000
(`run_init_known_bounded`).

How the calls on one key interleave when they run concurrently is the subject of
`Amos.AutoSchedule.ContextMap`.

## Main results

* `call_eq` — what one call does, as a step of its key's slot
* `run_eq_some_iff`, `run_congr`
* `run_init_contexts`, `run_init_isSome_iff`
* `run_init_topk_largest`, `run_init_known_bounded`
-/

namespace Amos

namespace AutoSchedule

variable {K E : Type} [DecidableEq K] [DecidableEq E]

open AutoScheduleContext

/-- Whether a call builds its key's context when the key has none: `schedule_func` and
`feedback_for` do, `clear_schedule_cache_for` does not. -/
def Op.createsContext : Op E → Bool
  | .clear => false
  | _ => true

/-! ### One key's entry -/

section Slot

variable (topk newTrial : ℕ)

/-- What a call does to its key's entry of `contexts`: an absent entry stays absent under
`clear_schedule_cache_for`; any other call runs on the entry's context, built if absent. -/
def slotStep : Option (AutoScheduleContext E) → Op E → Option (Option (AutoScheduleContext E))
  | none, .clear => some none
  | c, op => (step (c.getD (create topk newTrial)) op).map some

/-- The calls on one key, one after another, on its entry. -/
def slotRun : Option (AutoScheduleContext E) → List (Op E) → Option (Option (AutoScheduleContext E))
  | c, [] => some c
  | c, op :: ops => (slotStep topk newTrial c op).bind fun c' => slotRun c' ops

/-- Once a key has a context, its entry runs exactly as `execute`. -/
theorem slotRun_some (c : AutoScheduleContext E) (ops : List (Op E)) :
    slotRun topk newTrial (some c) ops = (execute c ops).map some := by
  induction ops generalizing c with
  | nil => rfl
  | cons op ops ih =>
    have hstep : slotStep topk newTrial (some c) op = (step c op).map some := by
      cases op <;> rfl
    rw [slotRun, hstep, execute]
    cases step c op <;> simp [ih]

/-- **An entry is built by its first `schedule_func` or `feedback_for`**, and then holds the
sequential run of all the key's calls on a fresh context: the `clear_schedule_cache_for`s before
it find nothing, and would have found nothing to clear. -/
theorem slotRun_none (ops : List (Op E)) :
    slotRun topk newTrial none ops =
      if ops.any Op.createsContext then (execute (create topk newTrial) ops).map some
      else some none := by
  induction ops with
  | nil => rfl
  | cons op ops ih =>
    cases op with
    | clear => simpa [slotRun, slotStep, Op.createsContext, execute, step] using ih
    | feedback r e =>
      simp [slotRun, slotStep, Op.createsContext, execute, step, slotRun_some]
    | round inp =>
      simp only [slotRun, slotStep, Option.getD_none, Op.createsContext, List.any_cons,
        Bool.true_or, if_true, execute]
      cases step (create topk newTrial) (.round inp) <;> simp [slotRun_some]

end Slot

/-! ### The scheduler -/

/-- What of `AutoScheduler` the three calls read and write: the configuration a new context is
built with, and `contexts`. -/
structure AutoScheduler (K E : Type) where
  /-- The `topk` every new context gets. -/
  topk : ℕ
  /-- The `new_trial` every new context gets. -/
  newTrial : ℕ
  /-- `contexts`: the context of each key that has one. -/
  contexts : K → Option (AutoScheduleContext E)

namespace AutoScheduler

/-- A scheduler with no context yet. -/
def init (topk newTrial : ℕ) : AutoScheduler K E := ⟨topk, newTrial, fun _ => none⟩

/-- The check-then-insert that `schedule_func` and `feedback_for` begin with, then
`contexts[key]`: the key's context, or a fresh `AutoScheduleContext(key, subgraph, target, topk,
new_trial, policy)`. -/
def contextOf (s : AutoScheduler K E) (key : K) : AutoScheduleContext E :=
  (s.contexts key).getD (create s.topk s.newTrial)

/-- The key's entry, pointed at `c`. -/
def setContext (s : AutoScheduler K E) (key : K) (c : AutoScheduleContext E) : AutoScheduler K E :=
  { s with contexts := Function.update s.contexts key (some c) }

/-- `schedule_func(key, subgraph, target)`: a round on the key's context, built if absent, and
its result; `none` where the round reads out of bounds. -/
def scheduleFunc (s : AutoScheduler K E) (key : K) (inp : RoundInput E) :
    Option (AutoScheduler K E × ScheduleResult E) :=
  ((s.contextOf key).autoSchedule inp).map fun p => (s.setContext key p.1, p.2)

/-- The part of `feedback_for(key, subgraph, target, schedule_result, evaluation)` that reaches
`contexts`: `add_feedback` on the key's context, built if absent. -/
def feedbackFor (s : AutoScheduler K E) (key : K) (scheduleResult : ScheduleResult E)
    (evaluation : ℚ) : AutoScheduler K E :=
  s.setContext key ((s.contextOf key).addFeedback scheduleResult evaluation)

/-- `clear_schedule_cache_for(key)`: only a key that has a context is touched. -/
def clearScheduleCacheFor (s : AutoScheduler K E) (key : K) : AutoScheduler K E :=
  match s.contexts key with
  | some c => s.setContext key c.clearKnowing
  | none => s

/-- One call, on the key it names; `none` where a round reads out of bounds. -/
def call (s : AutoScheduler K E) : K × Op E → Option (AutoScheduler K E)
  | (key, .feedback r e) => some (s.feedbackFor key r e)
  | (key, .round inp) => (s.scheduleFunc key inp).map Prod.fst
  | (key, .clear) => some (s.clearScheduleCacheFor key)

/-- Calls one after another. -/
def run (s : AutoScheduler K E) : List (K × Op E) → Option (AutoScheduler K E)
  | [] => some s
  | p :: ps => (s.call p).bind fun s' => s'.run ps

/-- The calls of a run on one key, in order. -/
def opsOf (key : K) (ps : List (K × Op E)) : List (Op E) :=
  ps.filterMap fun p => if p.1 = key then some p.2 else none

omit [DecidableEq E] in
@[simp] theorem opsOf_nil (key : K) : opsOf key ([] : List (K × Op E)) = [] := rfl

omit [DecidableEq E] in
theorem opsOf_cons (key k : K) (op : Op E) (ps : List (K × Op E)) :
    opsOf key ((k, op) :: ps) = if k = key then op :: opsOf key ps else opsOf key ps := by
  by_cases h : k = key <;> simp [opsOf, h]

/-- **One call is one step of its key's slot**, and leaves every other key's entry and the
configuration as they are. -/
theorem call_eq (s : AutoScheduler K E) (key : K) (op : Op E) :
    s.call (key, op) = (slotStep s.topk s.newTrial (s.contexts key) op).map fun c =>
      { s with contexts := Function.update s.contexts key c } := by
  cases op <;> cases h : s.contexts key <;>
    simp [call, slotStep, step, feedbackFor, scheduleFunc, clearScheduleCacheFor, setContext,
      contextOf, h, Function.comp_def]
  -- `clear_schedule_cache_for` on an absent key
  rw [← h, Function.update_eq_self]

theorem run_contexts {s s' : AutoScheduler K E} {ps : List (K × Op E)} (h : s.run ps = some s') :
    s'.topk = s.topk ∧ s'.newTrial = s.newTrial ∧
      ∀ k, slotRun s.topk s.newTrial (s.contexts k) (opsOf k ps) = some (s'.contexts k) := by
  induction ps generalizing s with
  | nil => cases h; exact ⟨rfl, rfl, fun _ => rfl⟩
  | cons p ps ih =>
    obtain ⟨key, op⟩ := p
    obtain ⟨s1, h1, hrun⟩ := Option.bind_eq_some.1 h
    rw [call_eq] at h1
    obtain ⟨c, hc, rfl⟩ := Option.map_eq_some'.1 h1
    obtain ⟨htopk, hnew, hk⟩ := ih hrun
    refine ⟨htopk, hnew, fun k => ?_⟩
    have hk : slotRun s.topk s.newTrial (Function.update s.contexts key c k) (opsOf k ps) =
        some (s'.contexts k) := hk k
    rw [opsOf_cons]
    by_cases hkey : key = k
    · subst hkey
      rw [Function.update_same] at hk
      simpa [slotRun, hc] using hk
    · rw [if_neg hkey]
      rwa [Function.update_noteq (Ne.symm hkey)] at hk

theorem run_of_slotRun {s : AutoScheduler K E} {ps : List (K × Op E)}
    {c : K → Option (AutoScheduleContext E)}
    (h : ∀ k, slotRun s.topk s.newTrial (s.contexts k) (opsOf k ps) = some (c k)) :
    s.run ps = some { s with contexts := c } := by
  induction ps generalizing s with
  | nil =>
    have hc : s.contexts = c := funext fun k => Option.some.inj (h k)
    rw [run, ← hc]
  | cons p ps ih =>
    obtain ⟨key, op⟩ := p
    have hkey := h key
    rw [opsOf_cons, if_pos rfl, slotRun] at hkey
    obtain ⟨c0, hc0, hrest⟩ := Option.bind_eq_some.1 hkey
    rw [run, call_eq, hc0, Option.map_some', Option.some_bind]
    refine ih fun k => ?_
    by_cases hk : k = key
    · subst hk
      simpa using hrest
    · simpa [Function.update_noteq hk, opsOf_cons, Ne.symm hk] using h k

theorem run_eq_some_of_slotRun {s s' : AutoScheduler K E} {ps : List (K × Op E)}
    (htopk : s'.topk = s.topk) (hnew : s'.newTrial = s.newTrial)
    (h : ∀ k, slotRun s.topk s.newTrial (s.contexts k) (opsOf k ps) = some (s'.contexts k)) :
    s.run ps = some s' := by
  rw [run_of_slotRun h]
  cases s'
  cases htopk
  cases hnew
  rfl

/-- **The scheduler is the product of its keys' slots.** A run ends in `s'` exactly when, key by
key, the key's own calls, in order, take its entry of `contexts` to `s'`'s; the configuration
never changes. -/
theorem run_eq_some_iff {s s' : AutoScheduler K E} {ps : List (K × Op E)} :
    s.run ps = some s' ↔ s'.topk = s.topk ∧ s'.newTrial = s.newTrial ∧
      ∀ k, slotRun s.topk s.newTrial (s.contexts k) (opsOf k ps) = some (s'.contexts k) :=
  ⟨run_contexts, fun ⟨htopk, hnew, h⟩ => run_eq_some_of_slotRun htopk hnew h⟩

/-- **Only each key's own order matters**: two runs whose calls agree key by key end alike, or
fail alike. -/
theorem run_congr (s : AutoScheduler K E) {ps ps' : List (K × Op E)}
    (h : ∀ k, opsOf k ps = opsOf k ps') : s.run ps = s.run ps' := by
  have hsub : ∀ {qs qs' : List (K × Op E)} {s' : AutoScheduler K E},
      (∀ k, opsOf k qs = opsOf k qs') → s.run qs = some s' → s.run qs' = some s' :=
    fun hq hs =>
      let ⟨htopk, hnew, hk⟩ := run_contexts hs
      run_eq_some_of_slotRun htopk hnew fun k => hq k ▸ hk k
  exact Option.ext fun s' => ⟨hsub h, hsub fun k => (h k).symm⟩

/-- A feedback on key `0` and a clear on key `1` can be made in either order. -/
theorem run_feedback_clear_comm :
    (init 1 1 : AutoScheduler ℕ ℕ).run [(0, .feedback ⟨5⟩ 2), (1, .clear)] =
      (init 1 1).run [(1, .clear), (0, .feedback ⟨5⟩ 2)] :=
  run_congr _ fun k => by
    simp only [opsOf_cons, opsOf_nil]
    split_ifs <;> subst_vars <;> simp_all

/-- **From a scheduler with no context, every key ends with the sequential run of its own calls
on a fresh context**, `execute (create topk new_trial)`, if one of them is a `schedule_func` or a
`feedback_for`, and with no context otherwise. -/
theorem run_init_contexts {topk newTrial : ℕ} {ps : List (K × Op E)} {s' : AutoScheduler K E}
    (h : (init topk newTrial).run ps = some s') (key : K) :
    s'.contexts key = if (opsOf key ps).any Op.createsContext then
      execute (create topk newTrial) (opsOf key ps) else none := by
  have hk := (run_contexts h).2.2 key
  rw [init, slotRun_none] at hk
  split_ifs at hk ⊢
  · obtain ⟨c, hc, hs⟩ := Option.map_eq_some'.1 hk
    rw [hc, hs]
  · exact (Option.some.inj hk).symm

/-- A clear on a key that never had a context leaves it without one. -/
theorem run_init_clear_contexts :
    ∃ s', (init 1 1 : AutoScheduler ℕ ℕ).run [(0, .feedback ⟨5⟩ 2), (1, .clear)] = some s' ∧
      s'.contexts 1 = none := by
  obtain ⟨s', h⟩ : ∃ s', (init 1 1 : AutoScheduler ℕ ℕ).run
      [(0, .feedback ⟨5⟩ 2), (1, .clear)] = some s' := ⟨_, rfl⟩
  exact ⟨s', h, by rw [run_init_contexts h 1]; rfl⟩

/-- **A run from a scheduler with no context fails exactly when one key's own sequential run
fails**: a round of that key reads out of bounds. -/
theorem run_init_isSome_iff (topk newTrial : ℕ) (ps : List (K × Op E)) :
    ((init topk newTrial : AutoScheduler K E).run ps).isSome ↔
      ∀ key, (opsOf key ps).any Op.createsContext →
        (execute (create topk newTrial) (opsOf key ps)).isSome := by
  constructor
  · intro h key hany
    obtain ⟨s', hs'⟩ := Option.isSome_iff_exists.1 h
    have hk := (run_contexts hs').2.2 key
    rw [init, slotRun_none, if_pos hany] at hk
    obtain ⟨c, hc, -⟩ := Option.map_eq_some'.1 hk
    simp [hc]
  · intro h
    have hslot : ∀ key, slotRun topk newTrial none (opsOf key ps) =
        some ((slotRun topk newTrial none (opsOf key ps)).getD none) := fun key => by
      rw [slotRun_none]
      split_ifs with hany
      · obtain ⟨c, hc⟩ := Option.isSome_iff_exists.1 (h key hany)
        simp [hc]
      · rfl
    rw [run_of_slotRun hslot]
    rfl

/-! ### Invariants of every key -/

theorem execute_of_run_init {topk newTrial : ℕ} {ps : List (K × Op E)} {s' : AutoScheduler K E}
    (h : (init topk newTrial).run ps = some s') {key : K} {c : AutoScheduleContext E}
    (hc : s'.contexts key = some c) : execute (create topk newTrial) (opsOf key ps) = some c := by
  have hk := (run_contexts h).2.2 key
  rw [init, slotRun_none, hc] at hk
  split_ifs at hk
  · obtain ⟨c', hc', hs⟩ := Option.map_eq_some'.1 hk
    rwa [Option.some.inj hs] at hc'
  · cases hk

/-- **Every invariant of the sequential run holds of every key.** A property of a context and the
positive evaluations fed back to it, which a fresh context has and every step keeps, holds after
any run of the scheduler from no context of every key's context, with the evaluations fed back on
that key alone. -/
theorem run_init_invariant (P : AutoScheduleContext E → Multiset ℚ → Prop)
    (hstep : ∀ c c' op fed, P c fed → step c op = some c' → P c' (fedOf op + fed))
    {topk newTrial : ℕ} (h0 : P (create topk newTrial) 0) {ps : List (K × Op E)}
    {s' : AutoScheduler K E} (h : (init topk newTrial).run ps = some s') {key : K}
    {c : AutoScheduleContext E} (hc : s'.contexts key = some c) : P c (fedBack (opsOf key ps)) :=
  execute_create_invariant P hstep h0 (execute_of_run_init h hc)

/-- **Each key's top-k cache keeps that key's `k` largest.** For every capacity `topk ≥ 1`, after
any run of the scheduler from no context, every key's heap holds exactly the `min(P, topk)`
largest of the `P` positive evaluations fed back on that key, whatever the other keys were fed,
and never more than `topk` entries. -/
theorem run_init_topk_largest {topk newTrial : ℕ} (hk : 0 < topk) {ps : List (K × Op E)}
    {s' : AutoScheduler K E} (h : (init topk newTrial).run ps = some s') {key : K}
    {c : AutoScheduleContext E} (hc : s'.contexts key = some c) :
    IsTopK topk (fedBack (opsOf key ps)) c.topkSchedules.evals ∧ c.topkSchedules.size ≤ topk := by
  obtain ⟨htopk, hout, hsize⟩ := run_init_invariant (fun c fed => c.topk = topk ∧ TopkInv c fed)
    (fun c c' op fed ⟨hc, h⟩ hs => ⟨(topk_of_step hs).trans hc, topkInv_step (hc ▸ hk) h hs⟩)
    ⟨rfl, outranked_zero, Nat.zero_le _⟩ h hc
  rw [htopk] at hout
  exact ⟨hout.isTopK (by rw [TopkHeap.card_evals, ← htopk]; exact hsize), htopk ▸ hsize⟩

/-- Key `0`'s cache of capacity one keeps the larger of its two evaluations, `3`, and not key
`1`'s `9`. -/
theorem run_init_topk_largest_two_keys :
    ∃ s' c, (init 1 1 : AutoScheduler ℕ ℕ).run
        [(0, .feedback ⟨5⟩ 2), (1, .feedback ⟨6⟩ 9), (0, .feedback ⟨7⟩ 3)] = some s' ∧
      s'.contexts 0 = some c ∧
      IsTopK 1 (fedBack (opsOf 0 [(0, .feedback ⟨5⟩ 2), (1, .feedback ⟨6⟩ 9),
        (0, .feedback ⟨7⟩ 3)])) c.topkSchedules.evals :=
  ⟨_, _, rfl, rfl, (@run_init_topk_largest ℕ ℕ _ _ 1 1 (by decide)
    [(0, .feedback ⟨5⟩ 2), (1, .feedback ⟨6⟩ 9), (0, .feedback ⟨7⟩ 3)] _ rfl 0 _ rfl).1⟩

/-- **Every key's `known_schedules` stays within 2000** after any run of the scheduler from no
context. -/
theorem run_init_known_bounded {topk newTrial : ℕ} {ps : List (K × Op E)}
    {s' : AutoScheduler K E} (h : (init topk newTrial).run ps = some s') {key : K}
    {c : AutoScheduleContext E} (hc : s'.contexts key = some c) : c.knownSchedules.card ≤ 2000 :=
  run_init_invariant (fun c _ => c.knownSchedules.card ≤ 2000)
    (fun _ _ _ _ h hs => card_known_step h hs) (Nat.zero_le _) h hc

/-- `run_init_known_bounded` after a feedback on each of two keys. -/
theorem run_init_known_bounded_two_keys :
    ∃ s' c, (init 1 1 : AutoScheduler ℕ ℕ).run
        [(0, .feedback ⟨5⟩ 2), (1, .feedback ⟨6⟩ 9)] = some s' ∧
      s'.contexts 1 = some c ∧ c.knownSchedules.card ≤ 2000 :=
  ⟨_, _, rfl, rfl, @run_init_known_bounded ℕ ℕ _ _ 1 1
    [(0, .feedback ⟨5⟩ 2), (1, .feedback ⟨6⟩ 9)] _ rfl 1 _ rfl⟩

end AutoScheduler

end AutoSchedule

end Amos
