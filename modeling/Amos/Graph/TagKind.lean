import Amos.Graph.ReMapper

/-!
# What `generate_tag_from_body` accepts, and the three kinds of tag

`generate_tag_from_body` (`abstract_graph.cc` lines 118–193) fails on two `CHECK`s only: a
leading `Reduce` with more expressions after it (`"Only support reduce with one body."`), and a
`Reduce` after a leading non-`Reduce` (`"Should only contain non-reduce expr."`). Its third
`CHECK`, that the remapped `Reduce` is still a `Reduce`, never fires. A body therefore gets a tag
exactly when it is empty, one `Reduce`, or free of `Reduce`s (`generateTagFromBody_eq_error_iff`).

The three kinds of body print three kinds of tag: the empty tag, a tag beginning `R[`, and one
beginning `S[`. The first character of a tag gives back the kind of its body
(`tagKind_generateTagFromBody`): whatever a tag fails to tell apart within one kind
(`Amos.Graph.Collision`), a reduction and a body without one never share a tag.

## Main definitions

* `BodyKind`, `bodyKind` — which branch of `generate_tag_from_body` a body takes
* `tagKind` — the kind of body a tag is printed from, read off its first character

## API

The branches of `generate_tag_from_body`, read back as statements about every body:

* `generateTagFromBody_eq_error_iff` — the failing bodies, with the message of the failed `CHECK`
* `tagKind_generateTagFromBody` — a tag gives back the kind of its body
-/

namespace Amos

namespace Graph

/-- The three kinds of body that `generate_tag_from_body` prints apart. -/
inductive BodyKind
  /-- No expression. -/
  | empty
  /-- Led by a `Reduce`. -/
  | reduce
  /-- Led by any other expression. -/
  | spatial
  deriving DecidableEq

/-- Which branch of `generate_tag_from_body` a body takes. -/
def bodyKind : List PrimExpr → BodyKind
  | [] => .empty
  | b :: _ => if b.isReduce then .reduce else .spatial

/-- The kind of body a tag is printed from, read off its first character. -/
def tagKind (tag : String) : BodyKind :=
  match tag.data with
  | [] => .empty
  | 'R' :: _ => .reduce
  | _ => .spatial

theorem map_eq_error_iff {ε α β : Type} {f : α → β} {x : Except ε α} {e : ε} :
    x.map f = .error e ↔ x = .error e := by
  cases x <;> simp [Except.map]

/-! ### The failed `CHECK`s -/

/-- The loop over a body with no leading `Reduce` fails exactly on a `Reduce`. -/
theorem printBody_eq_error_iff {msg : String} : ∀ body : List PrimExpr,
    printBody body = .error msg ↔
      (∃ b ∈ body, b.isReduce) ∧ msg = "Should only contain non-reduce expr."
  | [] => by simp [printBody]
  | b :: body => by
    by_cases hb : b.isReduce
    · rw [printBody, if_pos hb, Except.error.injEq]
      exact ⟨fun h => ⟨⟨b, List.mem_cons_self b body, hb⟩, h.symm⟩, fun h => h.2.symm⟩
    · rw [printBody, if_neg hb, map_eq_error_iff, printBody_eq_error_iff body]
      simp [hb]

/-- The tag of one `Reduce` is always built, and begins with `R`. -/
theorem reduceTag_visit (shape : List PrimExpr) {b : PrimExpr} (hb : b.isReduce) :
    ∃ tag, reduceTag shape (visit .init b).1 = .ok tag ∧ tagKind tag = .reduce := by
  cases b <;> simp only [PrimExpr.isReduce, Bool.false_eq_true] at hb
  exact ⟨_, rfl, rfl⟩

/-- **The bodies that get no tag, and the `CHECK` each fails**: a leading `Reduce` with more
expressions after it, and a `Reduce` after a leading non-`Reduce`. Every other body, empty, one
`Reduce` or free of `Reduce`s, gets its tag. -/
theorem generateTagFromBody_eq_error_iff (shape body : List PrimExpr) (msg : String) :
    generateTagFromBody shape body = .error msg ↔
      (bodyKind body = .reduce ∧ 1 < body.length ∧ msg = "Only support reduce with one body.") ∨
      (bodyKind body = .spatial ∧ (∃ b ∈ body, b.isReduce) ∧
        msg = "Should only contain non-reduce expr.") := by
  cases body with
  | nil => simp [generateTagFromBody, bodyKind]
  | cons b rest =>
    by_cases hb : b.isReduce
    · by_cases hlen : (b :: rest).length = 1
      · obtain ⟨tag, htag, -⟩ := reduceTag_visit shape hb
        simp [generateTagFromBody, bodyKind, hb, hlen, htag]
      · have hlong : 1 < (b :: rest).length := by simp only [List.length_cons] at hlen ⊢; omega
        rw [generateTagFromBody, if_pos hb, if_neg hlen, Except.error.injEq]
        simp only [bodyKind, hb, if_true, hlong, true_and, reduceCtorEq, false_and, or_false]
        exact eq_comm
    · rw [generateTagFromBody, if_neg hb, map_eq_error_iff, printBody_eq_error_iff]
      simp [bodyKind, hb]

/-! ### The kind of a tag -/

/-- **A tag gives back the kind of its body**: the empty tag comes from the empty body, a tag
beginning with `R` from one `Reduce`, and any other from a body without a `Reduce`. -/
theorem tagKind_generateTagFromBody {shape body : List PrimExpr} {tag : String}
    (h : generateTagFromBody shape body = .ok tag) : tagKind tag = bodyKind body := by
  cases body with
  | nil => cases h; rfl
  | cons b rest =>
    by_cases hb : b.isReduce
    · by_cases hlen : (b :: rest).length = 1
      · obtain ⟨tag', htag', hkind⟩ := reduceTag_visit shape hb
        rw [generateTagFromBody, if_pos hb, if_pos hlen, htag'] at h
        cases h
        simp [bodyKind, hb, hkind]
      · rw [generateTagFromBody, if_pos hb, if_neg hlen] at h
        cases h
    · rw [generateTagFromBody, if_neg hb] at h
      cases hp : printBody (b :: rest) with
      | error e => simp [hp, Except.map] at h
      | ok items =>
        simp only [hp, Except.map, Except.ok.injEq] at h
        subst h
        simp only [bodyKind, hb, Bool.false_eq_true, if_false]
        rfl

end Graph

end Amos
