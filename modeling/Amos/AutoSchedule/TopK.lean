import Mathlib.Data.Finset.Max
import Mathlib.Data.Multiset.Basic
import Mathlib.Order.Basic

/-!
# Keeping the `k` largest

What the top-k cache is for, stated without the heap. `IsTopK k fed H` says that `H` is exactly the
multiset of the `min (card fed) k` largest members of `fed`; `IsTopK.unique` shows that this pins
`H` down.

The cache is maintained one feedback at a time, and under interleaved rounds the heap may hold more
than `k` entries, so the invariant carried along runs is the weaker `Outranked k fed U`: `U` takes
nothing that was not fed, and every member of `fed` missing from `U` is outranked by at least `k`
members of `U`. The three ways `add_feedback` can treat a new evaluation (add it, skip it, or let
it replace the minimum) each keep `Outranked`, and with the size bound `card U ≤ k` it gives back
`IsTopK` (`Outranked.isTopK`).

## Main results

* `IsTopK.unique`
* `Outranked.cons`, `Outranked.skip`, `Outranked.replace` — the three feedback cases
* `Outranked.isTopK`, `Outranked.exists_isTopK` — within the capacity the invariant is the top
  `k`; beyond it, it contains the top `k`
-/

namespace Amos

namespace AutoSchedule

open Multiset

variable {α : Type} [LinearOrder α] {k : ℕ} {fed U H A B : Multiset α} {e m : α}

/-- `H` is the multiset of the `min (card fed) k` largest members of `fed`. -/
structure IsTopK (k : ℕ) (fed H : Multiset α) : Prop where
  /-- Only what was fed, at most as often as it was fed. -/
  le : H ≤ fed
  /-- As many as there are, up to `k`. -/
  card_eq : card H = min (card fed) k
  /-- Nothing left out beats anything kept. -/
  dominates : ∀ x ∈ H, ∀ y ∈ fed - H, y ≤ x

/-- Two multisets that both keep the `k` largest of `fed` are equal: a value kept more often by
one than by the other would have to beat, and be beaten by, a value kept more often by the other. -/
theorem IsTopK.unique (hA : IsTopK k fed A) (hB : IsTopK k fed B) : A = B := by
  have excess : ∀ {A B : Multiset α}, IsTopK k fed A → IsTopK k fed B → A ≠ B →
      ∃ v, count v B < count v A := by
    intro A B hA hB hne
    by_contra! h
    exact hne (eq_of_le_of_card_le (le_iff_count.2 h) (by rw [hA.card_eq, hB.card_eq]))
  by_contra hne
  obtain ⟨v, hv⟩ := excess hA hB hne
  obtain ⟨w, hw⟩ := excess hB hA (Ne.symm hne)
  have hvA : v ∈ A := count_pos.1 (by omega)
  have hwB : w ∈ B := count_pos.1 (by omega)
  have hvB : v ∈ fed - B := mem_sub.2 (lt_of_lt_of_le hv (le_iff_count.1 hA.le v))
  have hwA : w ∈ fed - A := mem_sub.2 (lt_of_lt_of_le hw (le_iff_count.1 hB.le w))
  have hvw : v = w := le_antisymm (hB.dominates w hwB v hvB) (hA.dominates v hvA w hwA)
  subst hvw
  omega

/-- `U` takes only what was fed, and every member of `fed` it misses is outranked by at least `k`
of its members. -/
structure Outranked (k : ℕ) (fed U : Multiset α) : Prop where
  /-- Only what was fed, at most as often as it was fed. -/
  le : U ≤ fed
  /-- What is missing is beaten `k` times over. -/
  outranked : ∀ y ∈ fed - U, k ≤ countP (y ≤ ·) U

theorem outranked_zero : Outranked k (0 : Multiset α) 0 :=
  ⟨le_rfl, by simp⟩

/-- A feedback that is added. -/
theorem Outranked.cons (h : Outranked k fed U) (e : α) : Outranked k (e ::ₘ fed) (e ::ₘ U) := by
  refine ⟨(cons_le_cons_iff e).2 h.le, fun y hy => ?_⟩
  have hy' : y ∈ fed - U := by
    rw [mem_sub, count_cons, count_cons] at hy
    exact mem_sub.2 (by omega)
  exact (h.outranked y hy').trans (countP_le_of_le _ (le_cons_self U e))

/-- A feedback that is skipped, because `k` members of `U` already beat it. -/
theorem Outranked.skip (h : Outranked k fed U) (he : k ≤ countP (e ≤ ·) U) :
    Outranked k (e ::ₘ fed) U := by
  refine ⟨h.le.trans (le_cons_self fed e), fun y hy => ?_⟩
  by_cases hye : y = e
  · exact hye ▸ he
  · refine h.outranked y (mem_sub.2 ?_)
    have := mem_sub.1 hy
    rwa [count_cons_of_ne hye] at this

/-- A feedback `e` that replaces a member `m ≤ e` of `m ::ₘ U`, provided `m` stays outranked `k`
times over. -/
theorem Outranked.replace (h : Outranked k fed (m ::ₘ U)) (hme : m ≤ e)
    (hm : k ≤ countP (m ≤ ·) (e ::ₘ U)) : Outranked k (e ::ₘ fed) (e ::ₘ U) := by
  refine ⟨(cons_le_cons_iff e).2 ((le_cons_self U m).trans h.le), fun y hy => ?_⟩
  have hcount := mem_sub.1 hy
  by_cases hym : y = m
  · exact hym ▸ hm
  · have hy' : y ∈ fed - m ::ₘ U := by
      rw [mem_sub, count_cons_of_ne hym]
      rw [count_cons, count_cons] at hcount
      omega
    calc k ≤ countP (y ≤ ·) (m ::ₘ U) := h.outranked y hy'
      _ ≤ countP (y ≤ ·) (e ::ₘ U) := by
        rw [countP_cons, countP_cons]
        split_ifs with h1 h2 <;> first | omega | exact absurd (h1.trans hme) h2

/-- Within the capacity, being outranked is being the top `k`. -/
theorem Outranked.isTopK (h : Outranked k fed H) (hk : card H ≤ k) : IsTopK k fed H := by
  have all_le : ∀ y ∈ fed - H, ∀ x ∈ H, y ≤ x := fun y hy =>
    countP_eq_card.1 (le_antisymm (countP_le_card _ _) ((hk.trans (h.outranked y hy))))
  refine ⟨h.le, ?_, fun x hx y hy => all_le y hy x hx⟩
  by_cases hsub : fed - H = 0
  · have hfed : fed = H := le_antisymm (le_iff_count.2 fun a => by
      have := congrArg (count a) hsub
      rw [count_sub, count_zero] at this
      omega) h.le
    rw [← hfed] at hk ⊢
    exact (min_eq_left hk).symm
  · obtain ⟨y, hy⟩ := exists_mem_of_ne_zero hsub
    have hkH : card H = k := le_antisymm hk ((h.outranked y hy).trans (countP_le_card _ _))
    rw [hkH, min_eq_right (hkH ▸ card_le_card h.le)]

/-- Dropping a least member `m` of `m ::ₘ U` keeps the invariant while `U` still has `k` members:
whatever `m` outranked, every member of `U` outranks too. -/
theorem Outranked.erase_min (h : Outranked k fed (m ::ₘ U)) (hmin : ∀ x ∈ U, m ≤ x)
    (hk : k ≤ card U) : Outranked k fed U := by
  refine ⟨(le_cons_self U m).trans h.le, fun y hy => ?_⟩
  by_cases hym : y ≤ m
  · rwa [countP_eq_card.2 fun x hx => hym.trans (hmin x hx)]
  · have hy' : y ∈ fed - m ::ₘ U := by
      rw [mem_sub, count_cons_of_ne fun h => hym h.le]
      exact mem_sub.1 hy
    rw [← countP_cons_of_neg _ hym]
    exact h.outranked y hy'

/-- **The invariant holds the top `k`**: whatever its size, `U` contains a sub-multiset that is
exactly the `min (card fed) k` largest members of `fed`. Drop least members while more than `k`
remain; what is left is within the capacity. -/
theorem Outranked.exists_isTopK (h : Outranked k fed U) : ∃ T ≤ U, IsTopK k fed T := by
  induction U using Multiset.strongInductionOn with
  | ih U ih =>
    by_cases hk : card U ≤ k
    · exact ⟨U, le_rfl, h.isTopK hk⟩
    obtain ⟨m, hm, hmin⟩ := U.toFinset.exists_min_image id
      (toFinset_nonempty.2 (card_pos.1 (by omega)))
    rw [mem_toFinset] at hm
    have hU : m ::ₘ U.erase m = U := cons_erase hm
    have hcard : card (U.erase m) + 1 = card U := by rw [← card_cons, hU]
    rw [← hU] at h
    obtain ⟨T, hT, htop⟩ := ih (U.erase m) (erase_lt.2 hm)
      (h.erase_min (fun x hx => hmin x (mem_toFinset.2 (mem_of_mem_erase hx))) (by omega))
    exact ⟨T, hT.trans (erase_le m U), htop⟩

end AutoSchedule

end Amos
