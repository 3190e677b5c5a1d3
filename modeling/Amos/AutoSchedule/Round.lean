import Amos.AutoSchedule.Context
import Mathlib.Data.Complex.Exponential

/-!
# One search round

`AutoScheduler::auto_schedule`, lines 69–201 of `auto_schedule.cc`, and the scoring of
`judge_schedule`, lines 50–65. A round

1. drains `topk_schedules` into `reverse_sort`, least evaluation first, and pushes everything back;
2. computes the acceptance possibilities `p` against the last, best, entry;
3. generates `new_trial` candidates, the first of which is meant to pass the novelty gate;
4. scores the candidates through the cost model and takes the first of the best scores;
5. records the winner in `knowing_schedules` and counts the round.

## What a round receives

The schedule space and the cost model are external. A round therefore takes a `RoundInput`: the
entity `spaces.choose_one` returns on each iteration of the generation loop, the cost model's
answer for the batch, and `get_gflop(subgraph)`. Whether an iteration asks `choose_one` for a
mutation of a seed drawn with probability `p[j]` or for a fresh random entity only decides which
entity comes back, and every theorem here quantifies over all of them, so the seed choice of lines
121–134 is folded into `RoundInput.draw`.

## Undefined behaviour

`autoSchedule` returns `none` where the C++ reads out of bounds: `new_candidates[best_ind]` with
`best_ind = -1`, or a score read past the cost model's answer. `autoSchedule_selects` shows that
neither happens when `new_trial ≥ 1`, the scale is nonnegative and the cost model answers once per
candidate.

## Main results

* `length_generate` — the loop leaves exactly `new_trial` candidates
* `iterations_generate_le`, `generate_bounded` — it stops within `new_trial + 1` iterations
* `selectBest_spec` — the selection loop finds the first greatest score
* `autoSchedule_spec` — what a round does to the context; later modules cite only this
-/

namespace Amos

namespace AutoSchedule

variable {E : Type}

/-! ### Draining and restoring the heap -/

/-- The drain loop `while (!topk_schedules.empty()) { reverse_sort.push_back(top()); pop(); }`.
Popping a heap kept least first yields its items in order and leaves it empty. -/
def TopkHeap.drain (h : TopkHeap E) : List (EvaluatedScheduleResult E) := h.items

/-- The restore loop `for (auto ele : reverse_sort) topk_schedules.push(ele);`, on whatever heap
it finds. -/
def TopkHeap.restore (h : TopkHeap E) (reverseSort : List (EvaluatedScheduleResult E)) :
    TopkHeap E :=
  reverseSort.foldl (fun h ele => h.push ele) h

namespace TopkHeap

theorem evals_restore (h : TopkHeap E) (reverseSort : List (EvaluatedScheduleResult E)) :
    (h.restore reverseSort).evals = h.evals + (reverseSort.map (·.evaluation) : Multiset ℚ) := by
  induction reverseSort generalizing h with
  | nil => simp [restore]
  | cons ele rest ih =>
    simp only [restore, List.foldl_cons] at ih ⊢
    rw [ih, evals_push, List.map_cons, ← Multiset.cons_coe, Multiset.add_cons,
      Multiset.cons_add]

theorem mem_restore {h : TopkHeap E} {reverseSort : List (EvaluatedScheduleResult E)}
    {x : EvaluatedScheduleResult E} :
    x ∈ (h.restore reverseSort).items ↔ x ∈ h.items ∨ x ∈ reverseSort := by
  induction reverseSort generalizing h with
  | nil => simp [restore]
  | cons ele rest ih =>
    simp only [restore, List.foldl_cons] at ih ⊢
    rw [ih, mem_push, List.mem_cons]
    tauto

/-- **Drain and restore lose and duplicate nothing.** -/
theorem evals_restore_drain (h : TopkHeap E) : (empty.restore h.drain).evals = h.evals := by
  rw [evals_restore, evals_empty, zero_add]
  rfl

theorem size_restore_drain (h : TopkHeap E) : (empty.restore h.drain).size = h.size := by
  rw [← card_evals, evals_restore_drain, card_evals]

end TopkHeap

/-! ### Acceptance possibilities -/

/-- `calculate_possibility(x, best, upper)`, over the reals. -/
noncomputable def calculatePossibility (x best upper : ℝ) : ℝ := Real.exp (x / best - 1) * upper

/-- The vector `p` of `auto_schedule`: every drained entry's possibility against the last one, with
`upper = 1.0`. Empty when nothing was drained. -/
noncomputable def possibilities (reverseSort : List (EvaluatedScheduleResult E)) : List ℝ :=
  match reverseSort.getLast? with
  | none => []
  | some best => reverseSort.map fun e => calculatePossibility e.evaluation best.evaluation 1

/-- In a list sorted by evaluation, the last entry is a greatest one. -/
theorem le_of_getLast? {reverseSort : List (EvaluatedScheduleResult E)}
    (hs : reverseSort.Sorted (· ≤ ·)) {best : EvaluatedScheduleResult E}
    (hb : reverseSort.getLast? = some best) : ∀ x ∈ reverseSort, x.evaluation ≤ best.evaluation := by
  obtain ⟨init, rfl⟩ := List.getLast?_eq_some_iff.1 hb
  intro x hx
  rcases List.mem_append.1 hx with hx | hx
  · exact (List.pairwise_append.1 hs).2.2 x hx best (List.mem_singleton_self best)
  · rw [List.mem_singleton.1 hx]

/-- **The possibilities of a drained heap.** Against a positive best, every possibility lies in
`(0, 1]`, they grow along `reverse_sort`, and the last one, the best's own, is `1`. -/
theorem possibilities_spec {reverseSort : List (EvaluatedScheduleResult E)}
    (hs : reverseSort.Sorted (· ≤ ·)) {best : EvaluatedScheduleResult E}
    (hb : reverseSort.getLast? = some best) (hpos : 0 < best.evaluation) :
    (∀ q ∈ possibilities reverseSort, 0 < q ∧ q ≤ 1) ∧ (possibilities reverseSort).Sorted (· ≤ ·) ∧
      (possibilities reverseSort).getLast? = some 1 := by
  have hbest : (0 : ℝ) < best.evaluation := by exact_mod_cast hpos
  have hmono : ∀ a b : ℚ, a ≤ b → calculatePossibility a best.evaluation 1 ≤
      calculatePossibility b best.evaluation 1 := fun a b hab => by
    simp only [calculatePossibility, mul_one, Real.exp_le_exp, sub_le_sub_iff_right]
    exact div_le_div_of_nonneg_right (by exact_mod_cast hab) hbest.le
  simp only [possibilities, hb]
  refine ⟨fun q hq => ?_, hs.map _ fun a b hab => hmono _ _ hab, ?_⟩
  · obtain ⟨x, hx, rfl⟩ := List.mem_map.1 hq
    refine ⟨by simp [calculatePossibility, Real.exp_pos], ?_⟩
    have hx1 : ((x.evaluation : ℚ) : ℝ) / best.evaluation ≤ 1 :=
      (div_le_one hbest).2 (by exact_mod_cast le_of_getLast? hs hb x hx)
    simpa [calculatePossibility, Real.exp_le_one_iff] using hx1
  · simp [hb, calculatePossibility, div_self hbest.ne']

/-! ### Generating candidates -/

variable [DecidableEq E]

/-- The body of the generation loop on one drawn entity: while `must_new > 0` it is kept only if
it is in neither `known_schedules` nor `knowing_schedules`; afterwards it is kept regardless. -/
def acceptDraw (known knowing : EntitySet E) (mustNew : ℤ) (newOne : E)
    (newCandidates : List E) : List E :=
  if 0 < mustNew then
    if newOne ∉ known ∧ newOne ∉ knowing then newCandidates ++ [newOne] else newCandidates
  else newCandidates ++ [newOne]

theorem acceptDraw_cases (known knowing : EntitySet E) (mustNew : ℤ) (newOne : E)
    (newCandidates : List E) :
    acceptDraw known knowing mustNew newOne newCandidates = newCandidates ++ [newOne] ∨
      (0 < mustNew ∧ acceptDraw known knowing mustNew newOne newCandidates = newCandidates) := by
  unfold acceptDraw
  split_ifs with h1 <;> simp [h1]

theorem length_acceptDraw_le (known knowing : EntitySet E) (mustNew : ℤ) (newOne : E)
    (newCandidates : List E) :
    (acceptDraw known knowing mustNew newOne newCandidates).length ≤ newCandidates.length + 1 := by
  rcases acceptDraw_cases known knowing mustNew newOne newCandidates with h | ⟨-, h⟩ <;>
    simp [h]

/-- The generation loop of `auto_schedule`:

```
while ((int)new_candidates.size() < context->new_trial) {
  new_one = context->spaces.choose_one(...);
  ... must_new gate ...
  must_new = -1;
}
```

`draw i` is the entity `choose_one` returns on iteration `i`. Returns the candidates and the number
of iterations run. It terminates because each iteration either adds a candidate or clears the
positive `must_new`; the measure is the one the source's loop decreases. -/
def generate (known knowing : EntitySet E) (newTrial : ℕ) (draw : ℕ → E)
    (newCandidates : List E) (mustNew : ℤ) (iter : ℕ) : List E × ℕ :=
  if newCandidates.length < newTrial then
    generate known knowing newTrial draw
      (acceptDraw known knowing mustNew (draw iter) newCandidates) (-1) (iter + 1)
  else (newCandidates, iter)
termination_by newTrial - newCandidates.length + if 0 < mustNew then 1 else 0
decreasing_by
  rcases acceptDraw_cases known knowing mustNew (draw iter) newCandidates with h | ⟨hm, h⟩
  · simp only [h, List.length_append, List.length_singleton]
    split_ifs <;> omega
  · simp [h, hm]

/-- **The loop leaves exactly `new_trial` candidates**, whatever the draws. -/
theorem length_generate (known knowing : EntitySet E) (newTrial : ℕ) (draw : ℕ → E)
    (newCandidates : List E) (mustNew : ℤ) (iter : ℕ) (h : newCandidates.length ≤ newTrial) :
    (generate known knowing newTrial draw newCandidates mustNew iter).1.length = newTrial := by
  induction newCandidates, mustNew, iter using generate.induct known knowing newTrial draw with
  | case1 newCandidates mustNew iter hlt ih =>
    rw [generate, if_pos hlt]
    exact ih (by have := length_acceptDraw_le known knowing mustNew (draw iter) newCandidates; omega)
  | case2 newCandidates mustNew iter hge =>
    rw [generate, if_neg hge]
    exact le_antisymm h (not_lt.1 hge)

/-- **The loop runs at most as many iterations as its measure**: the candidates still missing, plus
one while `must_new` is positive. Each iteration adds a candidate or spends `must_new`. -/
theorem iterations_generate_le (known knowing : EntitySet E) (newTrial : ℕ) (draw : ℕ → E)
    (newCandidates : List E) (mustNew : ℤ) (iter : ℕ) :
    (generate known knowing newTrial draw newCandidates mustNew iter).2 ≤
      iter + (newTrial - newCandidates.length + if 0 < mustNew then 1 else 0) := by
  induction newCandidates, mustNew, iter using generate.induct known knowing newTrial draw with
  | case1 newCandidates mustNew iter hlt ih =>
    rw [generate, if_pos hlt]
    refine ih.trans ?_
    rw [if_neg (by decide : ¬ (0 : ℤ) < -1)]
    rcases acceptDraw_cases known knowing mustNew (draw iter) newCandidates with h | ⟨hm, h⟩
    · rw [h, List.length_append, List.length_singleton]
      split_ifs <;> omega
    · rw [h, if_pos hm]
      omega
  | case2 newCandidates mustNew iter hge =>
    rw [generate, if_neg hge]
    omega

/-- Once `must_new` is spent every draw is kept: the loop takes the next draws in order until the
batch is full. -/
theorem generate_of_nonpos (known knowing : EntitySet E) (newTrial : ℕ) (draw : ℕ → E)
    (newCandidates : List E) (mustNew : ℤ) (iter : ℕ) (hm : mustNew ≤ 0)
    (h : newCandidates.length ≤ newTrial) :
    generate known knowing newTrial draw newCandidates mustNew iter =
      (newCandidates ++ (List.range (newTrial - newCandidates.length)).map (fun j => draw (iter + j)),
        iter + (newTrial - newCandidates.length)) := by
  induction newCandidates, mustNew, iter using generate.induct known knowing newTrial draw with
  | case1 newCandidates mustNew iter hlt ih =>
    have hacc : acceptDraw known knowing mustNew (draw iter) newCandidates =
        newCandidates ++ [draw iter] := by
      simp [acceptDraw, not_lt.2 hm]
    rw [generate, if_pos hlt, ih (by omega) (by simp [hacc]; omega), hacc]
    obtain ⟨n, hn⟩ : ∃ n, newTrial - newCandidates.length = n + 1 := ⟨_, (Nat.succ_pred_eq_of_pos
      (by omega)).symm⟩
    simp only [List.length_append, List.length_singleton, hn, List.range_succ_eq_map,
      List.map_cons, List.map_map, List.append_assoc, List.singleton_append]
    refine Prod.ext ?_ (by simp only; omega)
    simp only [show newTrial - (newCandidates.length + 1) = n by omega, Nat.add_zero]
    congr 3
    funext j
    simp [Function.comp, Nat.add_assoc, Nat.add_comm 1 j]
  | case2 newCandidates mustNew iter hge =>
    rw [generate, if_neg hge, show newTrial - newCandidates.length = 0 by omega]
    simp

/-- **The batch a round generates.** The gate looks at the first draw only: it is kept if novel
and dropped otherwise, and the following draws are all kept, novel or not. -/
theorem generate_start (known knowing : EntitySet E) {newTrial : ℕ} (draw : ℕ → E)
    (hn : 1 ≤ newTrial) :
    (generate known knowing newTrial draw [] newTrial 0).1 =
      if draw 0 ∉ known ∧ draw 0 ∉ knowing then
        draw 0 :: (List.range (newTrial - 1)).map fun j => draw (1 + j)
      else (List.range newTrial).map fun j => draw (1 + j) := by
  rw [generate, if_pos (by simpa using hn)]
  rw [generate_of_nonpos _ _ _ _ _ _ _ (by omega)
    ((length_acceptDraw_le _ _ _ _ _).trans (by simpa using hn))]
  by_cases hnew : draw 0 ∉ known ∧ draw 0 ∉ knowing
  · simp [acceptDraw, hnew, show (0 : ℤ) < newTrial by omega]
  · simp [acceptDraw, hnew, show (0 : ℤ) < newTrial by omega]

/-! ### Scoring and selecting -/

/-- The score `judge_schedule` makes of one cost: `0` for a cost `≤ 0`, otherwise
`gflop / (cost / 1e3)`. -/
def judgeScore (gflop v : ℚ) : ℚ := if v ≤ 0 then 0 else gflop / (v / 1000)

/-- The scores `judge_schedule` makes of the cost model's answers. -/
def judgeSchedule (costs : List ℚ) (gflop : ℚ) : List ℚ := costs.map (judgeScore gflop)

theorem judgeScore_nonneg {gflop : ℚ} (hg : 0 ≤ gflop) (v : ℚ) : 0 ≤ judgeScore gflop v := by
  unfold judgeScore
  split_ifs with hv
  · exact le_rfl
  · exact div_nonneg hg (by linarith)

theorem judgeScore_of_nonpos (gflop : ℚ) {v : ℚ} (hv : v ≤ 0) : judgeScore gflop v = 0 :=
  if_pos hv

theorem judgeScore_pos {gflop v : ℚ} (hg : 0 < gflop) (hv : 0 < v) : 0 < judgeScore gflop v := by
  rw [judgeScore, if_neg (not_le.2 hv)]
  exact div_pos hg (by linarith)

/-- With a positive scale, a smaller positive cost scores higher. -/
theorem judgeScore_le_iff {gflop a b : ℚ} (hg : 0 < gflop) (ha : 0 < a) (hb : 0 < b) :
    judgeScore gflop a ≤ judgeScore gflop b ↔ b ≤ a := by
  rw [judgeScore, judgeScore, if_neg (not_le.2 ha), if_neg (not_le.2 hb),
    div_le_div_iff_of_pos_left hg (by linarith) (by linarith)]
  constructor <;> intro h <;> linarith

theorem judgeScore_lt_iff {gflop a b : ℚ} (hg : 0 < gflop) (ha : 0 < a) (hb : 0 < b) :
    judgeScore gflop a < judgeScore gflop b ↔ b < a := by
  rw [← not_le, judgeScore_le_iff hg hb ha, not_le]

/-- The selection loop of `auto_schedule`, from index `i` on:
`if (tmp_judges[i] > best_value) { best_ind = i; best_value = tmp_judges[i]; }`. -/
def selectBest : List ℚ → ℕ → ℤ → ℚ → ℤ × ℚ
  | [], _, bestInd, bestValue => (bestInd, bestValue)
  | v :: rest, i, bestInd, bestValue =>
    if bestValue < v then selectBest rest (i + 1) i v
    else selectBest rest (i + 1) bestInd bestValue

/-- `k` is the least index of a greatest score. -/
def IsFirstMax (scores : List ℚ) (k : ℕ) : Prop :=
  ∃ m, scores[k]? = some m ∧ (∀ (l : ℕ) (w : ℚ), scores[l]? = some w → w ≤ m) ∧
    ∀ l < k, ∀ w : ℚ, scores[l]? = some w → w < m

/-- A score in front that the greatest score beats moves the first greatest score one place on. -/
theorem IsFirstMax.cons {scores : List ℚ} {k : ℕ} {v : ℚ} (h : IsFirstMax scores k)
    (hv : ∀ m, scores[k]? = some m → v < m) : IsFirstMax (v :: scores) (k + 1) := by
  obtain ⟨m, hk, hmax, hfirst⟩ := h
  have hvm := hv m hk
  refine ⟨m, by simpa using hk, fun l w hw => ?_, fun l hl w hw => ?_⟩
  · cases l with
    | zero => simp only [List.getElem?_cons_zero, Option.some.injEq] at hw; exact hw ▸ hvm.le
    | succ l => exact hmax l w (by simpa using hw)
  · cases l with
    | zero => simp only [List.getElem?_cons_zero, Option.some.injEq] at hw; exact hw ▸ hvm
    | succ l => exact hfirst l (by omega) w (by simpa using hw)

/-- The selection loop either keeps what it started with, when nothing beats it, or ends on the
first greatest score, which beats the starting value. -/
theorem selectBest_spec (scores : List ℚ) (i : ℕ) (bestInd : ℤ) (bestValue : ℚ) :
    (selectBest scores i bestInd bestValue = (bestInd, bestValue) ∧ ∀ w ∈ scores, w ≤ bestValue) ∨
      ∃ k, selectBest scores i bestInd bestValue = (((i + k : ℕ) : ℤ), scores[k]?.getD 0) ∧
        IsFirstMax scores k ∧ ∀ m, scores[k]? = some m → bestValue < m := by
  induction scores generalizing i bestInd bestValue with
  | nil => exact .inl ⟨rfl, by simp⟩
  | cons v rest ih =>
    by_cases hv : bestValue < v
    · rw [selectBest, if_pos hv]
      refine .inr ?_
      rcases ih (i + 1) i v with ⟨hsel, hle⟩ | ⟨k, hsel, hfm, hbeat⟩
      · refine ⟨0, by simpa using hsel, ⟨v, by simp, fun l w hw => ?_, by simp⟩, by simpa using hv⟩
        cases l with
        | zero => simp_all
        | succ l => exact hle w (List.getElem?_mem (by simpa using hw))
      · exact ⟨k + 1, by simpa [Nat.add_right_comm, Nat.add_assoc] using hsel, hfm.cons hbeat,
          fun m hm => hv.trans (hbeat m (by simpa using hm))⟩
    · rw [selectBest, if_neg hv]
      rcases ih (i + 1) bestInd bestValue with ⟨hsel, hle⟩ | ⟨k, hsel, hfm, hbeat⟩
      · exact .inl ⟨hsel, by simpa [not_lt.1 hv] using hle⟩
      · exact .inr ⟨k + 1, by simpa [Nat.add_right_comm, Nat.add_assoc] using hsel,
          hfm.cons fun m hm => (not_lt.1 hv).trans_lt (hbeat m hm), by simpa using hbeat⟩

/-- `k` is the first index of a least positive cost, or `0` when no cost is positive. -/
def IsFirstLeastPositive (costs : List ℚ) (k : ℕ) : Prop :=
  ((∃ v ∈ costs, 0 < v) → ∃ m, costs[k]? = some m ∧ 0 < m ∧
      (∀ (l : ℕ) (w : ℚ), costs[l]? = some w → 0 < w → m ≤ w) ∧
      ∀ l < k, ∀ w : ℚ, costs[l]? = some w → 0 < w → m < w) ∧
    ((∀ v ∈ costs, v ≤ 0) → k = 0)

/-- With a positive scale, the first greatest score is the first least positive cost, or the first
candidate when no cost is positive. -/
theorem isFirstLeastPositive_of_isFirstMax {costs : List ℚ} {gflop : ℚ} {k : ℕ} (hg : 0 < gflop)
    (h : IsFirstMax (judgeSchedule costs gflop) k) : IsFirstLeastPositive costs k := by
  obtain ⟨m, hk, hmax, hfirst⟩ := h
  have score : ∀ (l : ℕ) (w : ℚ), costs[l]? = some w →
      (judgeSchedule costs gflop)[l]? = some (judgeScore gflop w) := fun l w hw => by
    simp [judgeSchedule, hw]
  obtain ⟨ck, hck, rfl⟩ : ∃ ck, costs[k]? = some ck ∧ judgeScore gflop ck = m := by
    simpa [judgeSchedule] using hk
  refine ⟨fun ⟨v, hv, hv0⟩ => ?_, fun hall => ?_⟩
  · obtain ⟨l0, hl0⟩ := List.mem_iff_getElem?.1 hv
    have hck0 : 0 < ck := by
      by_contra hle
      have := hmax l0 _ (score l0 v hl0)
      rw [judgeScore_of_nonpos gflop (not_lt.1 hle)] at this
      exact absurd this (not_le.2 (judgeScore_pos hg hv0))
    refine ⟨ck, hck, hck0, fun l w hw hw0 => ?_, fun l hl w hw hw0 => ?_⟩
    · exact (judgeScore_le_iff hg hw0 hck0).1 (hmax l _ (score l w hw))
    · exact (judgeScore_lt_iff hg hw0 hck0).1 (hfirst l hl _ (score l w hw))
  · by_contra hk0
    have hpos : 0 < costs.length := by
      have := (List.getElem?_eq_some_iff.1 hck).1
      omega
    obtain ⟨c0, hc0⟩ : ∃ c0, costs[0]? = some c0 := ⟨costs[0], List.getElem?_eq_getElem hpos⟩
    have h0 := hfirst 0 (by omega) _ (score 0 c0 hc0)
    rw [judgeScore_of_nonpos gflop (hall c0 (List.getElem?_mem hc0)),
      judgeScore_of_nonpos gflop (hall ck (List.getElem?_mem hck))] at h0
    exact lt_irrefl 0 h0

/-! ### The round -/

/-- What a round receives from its collaborators. -/
structure RoundInput (E : Type) where
  /-- `draw i`: the entity `spaces.choose_one` returns on iteration `i` of the generation loop. -/
  draw : ℕ → E
  /-- The cost model's answer for the batch, meant to hold one cost per candidate. -/
  costs : List ℚ
  /-- `get_gflop(subgraph)`. -/
  gflop : ℚ

namespace AutoScheduleContext

/-- The candidates a round generates from `c`, starting with `must_new = new_trial`. -/
def newCandidates (c : AutoScheduleContext E) (draw : ℕ → E) : List E :=
  (generate c.knownSchedules c.knowingSchedules c.newTrial draw [] c.newTrial 0).1

/-- Lines 116–200 of `auto_schedule`, after the heap has been drained and restored: generate the
batch, score it, take the first best candidate, count the round and record the winner in
`knowing_schedules`. `none` stands for an out-of-bounds read. -/
def pickAndRecord (c : AutoScheduleContext E) (inp : RoundInput E) :
    Option (AutoScheduleContext E × ScheduleResult E) :=
  let newCandidates := c.newCandidates inp.draw
  let tmpJudges := judgeSchedule inp.costs inp.gflop
  if newCandidates.length ≤ tmpJudges.length then
    let bestInd := (selectBest (tmpJudges.take newCandidates.length) 0 (-1) (-1)).1
    (if 0 ≤ bestInd then newCandidates[bestInd.toNat]? else none).map fun resultEntity =>
      ({ c with
          counts := c.counts + 1
          knowingSchedules := c.knowingSchedules.insert resultEntity },
        ⟨resultEntity⟩)
  else none

/-- `AutoScheduler::auto_schedule(subgraph, context, results)`: drain the heap into
`reverse_sort`, push it back, then `pickAndRecord`. The vector `p` of the round is
`possibilities c.topkSchedules.drain`. -/
def autoSchedule (c : AutoScheduleContext E) (inp : RoundInput E) :
    Option (AutoScheduleContext E × ScheduleResult E) :=
  pickAndRecord { c with topkSchedules := TopkHeap.empty.restore c.topkSchedules.drain } inp

theorem length_newCandidates (c : AutoScheduleContext E) (draw : ℕ → E) :
    (c.newCandidates draw).length = c.newTrial :=
  length_generate _ _ _ _ _ _ _ (Nat.zero_le _)

/-- **The generation loop stops within `new_trial + 1` iterations, with a full batch**, on every
context and whatever `choose_one` returns, novel or not: the measure starts at `new_trial + 1`. -/
theorem generate_bounded (c : AutoScheduleContext E) (draw : ℕ → E) :
    (generate c.knownSchedules c.knowingSchedules c.newTrial draw [] c.newTrial 0).2 ≤
        c.newTrial + 1 ∧
      (c.newCandidates draw).length = c.newTrial := by
  refine ⟨(iterations_generate_le _ _ _ _ _ _ _).trans ?_, length_newCandidates c draw⟩
  split_ifs <;> simp

/-- What the tail of a round does: it counts the round and records the returned entity, one of
the generated candidates, in `knowing_schedules`; the heap is not touched. -/
theorem pickAndRecord_spec {c c' : AutoScheduleContext E} {inp : RoundInput E}
    {res : ScheduleResult E} (h : c.pickAndRecord inp = some (c', res)) :
    c' = { c with
        counts := c.counts + 1
        knowingSchedules := c.knowingSchedules.insert res.scheduleEntities } ∧
      res.scheduleEntities ∈ c.newCandidates inp.draw := by
  unfold pickAndRecord at h
  dsimp only at h
  split_ifs at h
  · obtain ⟨x, hx, hxe⟩ := Option.map_eq_some'.1 h
    cases hxe
    exact ⟨rfl, List.getElem?_mem hx⟩
  all_goals simp at h

/-- The batch of a round, by `generate_start`. -/
theorem newCandidates_eq (c : AutoScheduleContext E) (draw : ℕ → E) :
    c.newCandidates draw =
      if c.newTrial = 0 then []
      else if draw 0 ∉ c.knownSchedules ∧ draw 0 ∉ c.knowingSchedules then
        draw 0 :: (List.range (c.newTrial - 1)).map fun j => draw (1 + j)
      else (List.range c.newTrial).map fun j => draw (1 + j) := by
  split_ifs with hn
  · rw [newCandidates, generate, if_neg (by simp [hn])]
  · exact (generate_start _ _ _ (by omega)).trans (if_pos ‹_›)
  · exact (generate_start _ _ _ (by omega)).trans (if_neg ‹_›)

/-- Every candidate of a batch is one of the draws. -/
theorem mem_newCandidates {c : AutoScheduleContext E} {draw : ℕ → E} {x : E}
    (h : x ∈ c.newCandidates draw) : ∃ i, x = draw i := by
  rw [newCandidates_eq] at h
  split_ifs at h
  · exact absurd h (List.not_mem_nil x)
  · rcases List.mem_cons.1 h with h | h
    · exact ⟨0, h⟩
    · obtain ⟨j, -, rfl⟩ := List.mem_map.1 h
      exact ⟨1 + j, rfl⟩
  · obtain ⟨j, -, rfl⟩ := List.mem_map.1 h
    exact ⟨1 + j, rfl⟩

/-- The gate is spent on the first draw even when that draw is dropped. With entity `0` already
known, `new_trial = 1` and `choose_one` answering `0` every time, the first draw is rejected, the
second is taken unchecked, and no candidate of the batch is new. -/
theorem newCandidates_first_repeat :
    let c : AutoScheduleContext ℕ :=
      { AutoScheduleContext.create 1 1 with knownSchedules := EntitySet.empty.insert 0 }
    c.newCandidates (fun _ => 0) = [0] ∧ ∀ x ∈ c.newCandidates (fun _ => 0), x ∈ c.knownSchedules := by
  intro c
  rw [newCandidates_eq]
  decide

/-- **What a round does to the context**: the heap is drained and refilled, the round is counted,
and the returned entity, one of the generated candidates, joins `knowing_schedules`. -/
theorem autoSchedule_spec {c c' : AutoScheduleContext E} {inp : RoundInput E}
    {res : ScheduleResult E} (h : c.autoSchedule inp = some (c', res)) :
    c' = { c with
        topkSchedules := TopkHeap.empty.restore c.topkSchedules.drain
        counts := c.counts + 1
        knowingSchedules := c.knowingSchedules.insert res.scheduleEntities } ∧
      res.scheduleEntities ∈ c.newCandidates inp.draw :=
  pickAndRecord_spec h

/-- **The winner of a round.** With `new_trial ≥ 1`, a nonnegative scale and one cost per
candidate, `best_ind` is an index `k` of the batch: the first greatest score, which for a positive
scale is the first least positive cost (or `0` when no cost is positive); and the round returns
candidate `k`. -/
theorem autoSchedule_selects (c : AutoScheduleContext E) (inp : RoundInput E)
    (hn : 1 ≤ c.newTrial) (hg : 0 ≤ inp.gflop) (hc : inp.costs.length = c.newTrial) :
    ∃ k < c.newTrial, (selectBest (judgeSchedule inp.costs inp.gflop) 0 (-1) (-1)).1 = k ∧
      IsFirstMax (judgeSchedule inp.costs inp.gflop) k ∧
      (0 < inp.gflop → IsFirstLeastPositive inp.costs k) ∧
      ∃ entity, (c.newCandidates inp.draw)[k]? = some entity ∧
        ∃ c', c.autoSchedule inp = some (c', ⟨entity⟩) := by
  set scores := judgeSchedule inp.costs inp.gflop with hscores
  have hlen : scores.length = c.newTrial := by simp [hscores, judgeSchedule, hc]
  rcases selectBest_spec scores 0 (-1) (-1) with ⟨-, hle⟩ | ⟨k, hsel, hfm, -⟩
  · obtain ⟨w, hw⟩ := List.exists_mem_of_length_pos (by omega : 0 < scores.length)
    have : 0 ≤ w := by
      obtain ⟨v, -, rfl⟩ := List.mem_map.1 hw
      exact judgeScore_nonneg hg v
    linarith [hle w hw]
  obtain ⟨m, hk, hmax⟩ := hfm
  have hkn : k < c.newTrial := hlen ▸ (List.getElem?_eq_some_iff.1 hk).1
  obtain ⟨entity, hent⟩ : ∃ entity, (c.newCandidates inp.draw)[k]? = some entity :=
    Option.ne_none_iff_exists'.1 (by simp [length_newCandidates, hkn])
  refine ⟨k, hkn, by simpa using congrArg Prod.fst hsel, ⟨m, hk, hmax⟩, fun hg' =>
    isFirstLeastPositive_of_isFirstMax hg' ⟨m, hk, hmax⟩, entity, hent, ?_⟩
  have htake : scores.take c.newTrial = scores := by rw [← hlen, List.take_length]
  simp only [autoSchedule, pickAndRecord, ← hscores, length_newCandidates, hlen, le_refl, if_true,
    htake, hsel]
  simpa [newCandidates] using hent

/-- `autoSchedule_selects` on the spec's example: costs `[2000, 1000, 500]` at `gflop = 4`. -/
theorem autoSchedule_selects_example :
    ∃ k < 3, IsFirstLeastPositive [2000, 1000, 500] k ∧ ∃ entity c',
      (create 1 3 : AutoScheduleContext ℕ).autoSchedule ⟨fun i => i, [2000, 1000, 500], 4⟩ =
        some (c', ⟨entity⟩) := by
  obtain ⟨k, hk, -, -, hpos, entity, -, c', hc'⟩ :=
    autoSchedule_selects (create 1 3 : AutoScheduleContext ℕ) ⟨fun i => i, [2000, 1000, 500], 4⟩
      (by decide) (by norm_num) rfl
  exact ⟨k, hk, hpos (by norm_num), entity, c', hc'⟩

end AutoScheduleContext

end AutoSchedule

end Amos
