import Mathlib.Data.List.Basic
import Mathlib.Algebra.Group.Nat.Basic
import Mathlib.Data.String.Basic

/-!
# Intrinsic rules for ROCm

`intrin_rule_rocm.cc` lowers TVM's intrinsic calls for AMD GPUs. A math intrinsic `tir.<name>`
becomes a call of the OCML library function `__ocml_<name>_f<bits>` (`dispatchPureExternOCML`).
The three warp shuffles become one `llvm.amdgcn.ds.bpermute`, which reads a 32-bit value from
another lane of the wave at a byte address (`dispatchShuffle`): each lane takes its own id from
two `mbcnt`s over an all-ones mask (`laneId`), and computes the lane to read with bit masks on the
width of the shuffle's lane groups (`shuffleIndex`).

`Expr.eval` gives the built expressions their meaning on one lane of a wave of 64: 32-bit two's
complement for the integer nodes, and, for the three AMDGPU intrinsics, what the GCN instruction
set defines: `mbcnt` counts the mask's bits below the lane, and `ds_bpermute` reads lane
`addr[7:2]`.

The shuffle lowering is correct (`dispatchShuffle_eval`): on every lane, for every power-of-two
width up to 64 and every lane argument below `2 ^ 30`, the lowered call returns the value held by
the lane the shuffle names (`shuffleSource`), taken modulo the wave. The up and down shuffles stay
in the lane's group, and so does a `tvm_warp_shuffle` whose source lane is below the width
(`dispatchShuffle_eval_mem_group`); with a source lane at or above the width it reads another
group (`dispatchShuffle_eval_not_mem_group`).

## Main results

* `dispatchShuffle_eval`: what the lowered shuffle returns
* `dispatchShuffle_eval_mem_group`, `dispatchShuffle_eval_not_mem_group`: which group it reads

## API

* `dispatchPureExternOCML_eq_ok`, `dispatchPureExternOCML_injective`: the calls the OCML lowering
  accepts, and the intrinsic, type and arguments read back from the call it builds
* `dispatchShuffle_eq_ok`, `dispatchShuffle_isOk_iff`: the calls `DispatchShuffle` lowers, and
  what it builds for them

## Scope

Operators are built as the source writes them: TVM's constant folding inside `-`, `&`, `~`, `+`
and `<<` changes no value and is left out. `&`, `~` and `<<` are TVM builtins, calls of
`tir.bitwise_and`, `tir.bitwise_not` and `tir.shift_left`; they are nodes of their own here. The
registration table, `TVM_REGISTER_GLOBAL("tvm.intrin.rule.rocm.…")`, is left out.
-/

namespace Amos

namespace Codegen

/-- The `tir` expressions the ROCm rules read and build. -/
inductive Expr
  /-- `IntImm`: the bit width of its type, and its value. -/
  | intImm (bits : ℕ) (value : ℤ)
  | stringImm (value : String)
  /-- A node the rules pass through untouched: the bit width of its type, and which node. -/
  | leaf (bits : ℕ) (id : ℕ)
  | add (a b : Expr)
  | sub (a b : Expr)
  /-- `a & b`. -/
  | bitwiseAnd (a b : Expr)
  /-- `~a`. -/
  | bitwiseNot (a : Expr)
  /-- `a << b`. -/
  | shiftLeft (a b : Expr)
  | lt (a b : Expr)
  | ge (a b : Expr)
  | select (condition trueValue falseValue : Expr)
  /-- `Call(dtype, op, args)`: the bit width of `dtype`, the name of the operator `op`, and the
  arguments. -/
  | call (bits : ℕ) (op : String) (args : List Expr)

namespace Expr

/-- `dtype().bits()`. -/
def bits : Expr → ℕ
  | .intImm bits _ | .leaf bits _ | .call bits _ _ => bits
  | .stringImm _ => 0
  | .add a _ | .sub a _ | .bitwiseAnd a _ | .bitwiseNot a | .shiftLeft a _ => a.bits
  | .lt _ _ | .ge _ _ => 1
  | .select _ t _ => t.bits

end Expr

/-! ### The lowering -/

/-- `Call(DataType(bits), builtin::call_pure_extern(), {StringImm(name), args…})`. -/
def pureExtern (bits : ℕ) (name : String) (args : List Expr) : Expr :=
  .call bits "tir.call_pure_extern" (.stringImm name :: args)

/-- `DispatchPureExternOCML`: a call of `tir.<name>` becomes the OCML function
`__ocml_<name>_f<bits>` on the same arguments. -/
def dispatchPureExternOCML : Expr → Except String Expr
  | .call bits name args =>
    if name.take 4 = "tir." then
      .ok (pureExtern bits ("__ocml_" ++ name.drop 4 ++ "_f" ++ toString bits) args)
    else .error "ICHECK_EQ(name.substr(0, 4), \"tir.\")"
  | _ => .error "ICHECK(call != nullptr)"

/-- `self` in `DispatchShuffle`, the lane's own id:
`llvm.amdgcn.mbcnt.hi(-1, llvm.amdgcn.mbcnt.lo(-1, 0))`. -/
def laneId : Expr :=
  pureExtern 32 "llvm.amdgcn.mbcnt.hi"
    [.intImm 32 (-1), pureExtern 32 "llvm.amdgcn.mbcnt.lo" [.intImm 32 (-1), .intImm 32 0]]

/-- The lane to read from, as `DispatchShuffle` builds it for the operator `op`, from the third
argument (`src_lane` or `delta`) and the width:
`src_lane + (self & ~(width - 1))`, `Select(index < (self & ~(width - 1)), self, self - delta)`, or
`Select((self & (width - 1)) + delta >= width, self, self + delta)`. -/
def shuffleIndex (op : String) (arg width : Expr) : Except String Expr :=
  let self := laneId
  if op = "tir.tvm_warp_shuffle" then
    .ok (.add arg (.bitwiseAnd self (.bitwiseNot (.sub width (.intImm width.bits 1)))))
  else if op = "tir.tvm_warp_shuffle_up" then
    let index := Expr.sub self arg
    .ok (.select (.lt index (.bitwiseAnd self (.bitwiseNot (.sub width (.intImm width.bits 1)))))
      self index)
  else if op = "tir.tvm_warp_shuffle_down" then
    let index := Expr.add self arg
    .ok (.select (.ge (.add (.bitwiseAnd self (.sub width (.intImm width.bits 1))) arg) width)
      self index)
  else .error "ICHECK(call->op.same_as(builtin::tvm_warp_shuffle_down()))"

/-- `DispatchShuffle`: a warp shuffle `op(mask, value, src_lane or delta, width, warp_size)`
becomes `llvm.amdgcn.ds.bpermute(index << 2, value)`. -/
def dispatchShuffle : Expr → Except String Expr
  | .call _ op args =>
    match args with
    | [_, var, arg, width, _] =>
      if var.bits = 32 then
        (shuffleIndex op arg width).map fun index =>
          pureExtern var.bits "llvm.amdgcn.ds.bpermute"
            [.shiftLeft index (.intImm index.bits 2), var]
      else .error "ICHECK_EQ(var.dtype().bits(), 32)"
    | _ => .error "ICHECK_EQ(call->args.size(), 5)"
  | _ => .error "ICHECK(call != nullptr)"

/-! ### What the lowered code computes -/

/-- How many bits of `mask` below bit `n` are set. -/
def bitsBelow (mask n : ℕ) : ℕ := (List.range n).countP fun i => mask.testBit i

/-- The value of an expression on lane `lane` of a wave of 64, in 32-bit two's complement; `ρ`
gives each lane's values of the nodes the rules pass through. `mbcnt.lo` and `mbcnt.hi` add to
their second operand the number of bits of their mask below the lane, among lanes `0–31` and
`32–63`; `ds_bpermute` reads its second operand on lane `addr[7:2]`. -/
def Expr.eval (ρ : ℕ → Expr → BitVec 32) : ℕ → Expr → BitVec 32
  | _, .intImm _ value => BitVec.ofInt 32 value
  | lane, .add a b => eval ρ lane a + eval ρ lane b
  | lane, .sub a b => eval ρ lane a - eval ρ lane b
  | lane, .bitwiseAnd a b => eval ρ lane a &&& eval ρ lane b
  | lane, .bitwiseNot a => ~~~eval ρ lane a
  | lane, .shiftLeft a b => eval ρ lane a <<< (eval ρ lane b).toNat
  | lane, .lt a b => if (eval ρ lane a).slt (eval ρ lane b) then 1 else 0
  | lane, .ge a b => if (eval ρ lane b).sle (eval ρ lane a) then 1 else 0
  | lane, .select c t f => if eval ρ lane c ≠ 0 then eval ρ lane t else eval ρ lane f
  | lane, .call _ "tir.call_pure_extern" [.stringImm "llvm.amdgcn.mbcnt.lo", mask, acc] =>
    eval ρ lane acc + BitVec.ofNat 32 (bitsBelow (eval ρ lane mask).toNat (min lane 32))
  | lane, .call _ "tir.call_pure_extern" [.stringImm "llvm.amdgcn.mbcnt.hi", mask, acc] =>
    eval ρ lane acc + BitVec.ofNat 32 (bitsBelow (eval ρ lane mask).toNat (lane - 32))
  | lane, .call _ "tir.call_pure_extern" [.stringImm "llvm.amdgcn.ds.bpermute", addr, value] =>
    eval ρ ((eval ρ lane addr).toNat / 4 % 64) value
  | lane, e => ρ lane e

namespace Expr

variable (ρ : ℕ → Expr → BitVec 32) (lane : ℕ)

@[simp] theorem eval_intImm (bits : ℕ) (value : ℤ) :
    (intImm bits value).eval ρ lane = BitVec.ofInt 32 value := rfl

@[simp] theorem eval_add (a b : Expr) : (add a b).eval ρ lane = a.eval ρ lane + b.eval ρ lane := rfl

@[simp] theorem eval_sub (a b : Expr) : (sub a b).eval ρ lane = a.eval ρ lane - b.eval ρ lane := rfl

@[simp] theorem eval_bitwiseAnd (a b : Expr) :
    (bitwiseAnd a b).eval ρ lane = a.eval ρ lane &&& b.eval ρ lane := rfl

@[simp] theorem eval_bitwiseNot (a : Expr) : (bitwiseNot a).eval ρ lane = ~~~a.eval ρ lane := rfl

@[simp] theorem eval_shiftLeft (a b : Expr) :
    (shiftLeft a b).eval ρ lane = a.eval ρ lane <<< (b.eval ρ lane).toNat := rfl

end Expr

section Intrinsics

variable (ρ : ℕ → Expr → BitVec 32) (lane bits : ℕ)

@[simp] theorem eval_mbcntLo (mask acc : Expr) :
    (pureExtern bits "llvm.amdgcn.mbcnt.lo" [mask, acc]).eval ρ lane =
      acc.eval ρ lane + BitVec.ofNat 32 (bitsBelow (mask.eval ρ lane).toNat (min lane 32)) := rfl

@[simp] theorem eval_mbcntHi (mask acc : Expr) :
    (pureExtern bits "llvm.amdgcn.mbcnt.hi" [mask, acc]).eval ρ lane =
      acc.eval ρ lane + BitVec.ofNat 32 (bitsBelow (mask.eval ρ lane).toNat (lane - 32)) := rfl

@[simp] theorem eval_dsBpermute (addr value : Expr) :
    (pureExtern bits "llvm.amdgcn.ds.bpermute" [addr, value]).eval ρ lane =
      value.eval ρ ((addr.eval ρ lane).toNat / 4 % 64) := rfl

end Intrinsics

/-- The three warp shuffles. -/
inductive ShuffleKind
  | shuffle
  | up
  | down
  deriving DecidableEq

/-- The operator of each shuffle. -/
def ShuffleKind.opName : ShuffleKind → String
  | .shuffle => "tir.tvm_warp_shuffle"
  | .up => "tir.tvm_warp_shuffle_up"
  | .down => "tir.tvm_warp_shuffle_down"

/-- The lane whose `value` a warp shuffle returns on lane `lane`, with `width` lanes to a group:
`tvm_warp_shuffle` reads lane `src` of the lane's group; `tvm_warp_shuffle_up` reads `delta` lanes
below and `tvm_warp_shuffle_down` `delta` lanes above, each staying on the lane itself where it
would leave the group. -/
def shuffleSource : ShuffleKind → (lane width arg : ℕ) → ℕ
  | .shuffle, lane, width, src => lane / width * width + src
  | .up, lane, width, delta => if delta ≤ lane % width then lane - delta else lane
  | .down, lane, width, delta => if lane % width + delta < width then lane + delta else lane

/-- A place `r` in the group of `lane`, for groups of `2 ^ k ≤ 64` lanes, is a lane of the wave in
that group. -/
theorem groupLane_lt_and_div {lane k r : ℕ} (hlane : lane < 64) (hk : k ≤ 6) (hr : r < 2 ^ k) :
    lane / 2 ^ k * 2 ^ k + r < 64 ∧ (lane / 2 ^ k * 2 ^ k + r) / 2 ^ k = lane / 2 ^ k := by
  have hpos := Nat.two_pow_pos k
  have hwave : 2 ^ (6 - k) * 2 ^ k = 64 := by rw [← Nat.pow_add, Nat.sub_add_cancel hk]
  have hq : lane / 2 ^ k < 2 ^ (6 - k) := (Nat.div_lt_iff_lt_mul hpos).2 (by omega)
  refine ⟨?_, by rw [Nat.add_comm, Nat.add_mul_div_right _ _ hpos, Nat.div_eq_of_lt hr, Nat.zero_add]⟩
  calc lane / 2 ^ k * 2 ^ k + r < (lane / 2 ^ k + 1) * 2 ^ k := by rw [Nat.succ_mul]; omega
    _ ≤ 2 ^ (6 - k) * 2 ^ k := Nat.mul_le_mul_right _ hq
    _ = 64 := hwave

/-- **A shuffle reads inside the lane's group.** The up and down shuffles never leave the group of
`2 ^ k` lanes of `lane`, and neither does `tvm_warp_shuffle` when its source lane is below the
width. -/
theorem shuffleSource_mem_group (kind : ShuffleKind) {lane k arg : ℕ} (hlane : lane < 64)
    (hk : k ≤ 6) (hsrc : kind = .shuffle → arg < 2 ^ k) :
    shuffleSource kind lane (2 ^ k) arg < 64 ∧
      shuffleSource kind lane (2 ^ k) arg / 2 ^ k = lane / 2 ^ k := by
  have hlane' : lane / 2 ^ k * 2 ^ k + lane % 2 ^ k = lane := by
    rw [Nat.mul_comm]; exact Nat.div_add_mod lane (2 ^ k)
  have hmod := Nat.mod_lt lane (Nat.two_pow_pos k)
  have hself : lane < 64 ∧ lane / 2 ^ k = lane / 2 ^ k := ⟨hlane, rfl⟩
  cases kind
  case shuffle => exact groupLane_lt_and_div hlane hk (hsrc rfl)
  case up =>
    simp only [shuffleSource]
    split_ifs with hd
    · rw [show lane - arg = lane / 2 ^ k * 2 ^ k + (lane % 2 ^ k - arg) by omega]
      exact groupLane_lt_and_div hlane hk (by omega)
    · exact hself
  case down =>
    simp only [shuffleSource]
    split_ifs with hd
    · rw [show lane + arg = lane / 2 ^ k * 2 ^ k + (lane % 2 ^ k + arg) by omega]
      exact groupLane_lt_and_div hlane hk hd
    · exact hself

/-- A `tvm_warp_shuffle` whose source lane is not below the width reads another group. -/
theorem shuffleSource_shuffle_not_mem_group {lane width src : ℕ} (hw : 0 < width)
    (hsrc : width ≤ src) : shuffleSource .shuffle lane width src / width ≠ lane / width := by
  rw [shuffleSource, Nat.add_comm, Nat.add_mul_div_right _ _ hw]
  have := Nat.div_pos hsrc hw
  omega

/-! ### The lane id -/

theorem bitsBelow_of_testBit {mask n : ℕ} (h : ∀ i < n, mask.testBit i = true) :
    bitsBelow mask n = n := by
  unfold bitsBelow
  rw [List.countP_eq_length.2 fun i hi => h i (List.mem_range.1 hi), List.length_range]

/-- `mbcnt.hi(-1, mbcnt.lo(-1, 0))` counts every lane below: it is the lane's id. -/
theorem eval_laneId (ρ : ℕ → Expr → BitVec 32) {lane : ℕ} (hlane : lane < 64) :
    laneId.eval ρ lane = BitVec.ofNat 32 lane := by
  have hmask : (BitVec.ofInt 32 (-1)).toNat = 2 ^ 32 - 1 := rfl
  have hbits : ∀ n ≤ 32, bitsBelow (2 ^ 32 - 1) n = n := fun n hn =>
    bitsBelow_of_testBit fun i hi => by
      rw [Nat.testBit_two_pow_sub_one]
      exact decide_eq_true (by omega)
  simp only [laneId, eval_mbcntHi, eval_mbcntLo, Expr.eval_intImm, hmask,
    hbits _ (Nat.min_le_right lane 32), hbits (lane - 32) (by omega)]
  rw [show BitVec.ofInt 32 0 = BitVec.ofNat 32 0 from rfl, BitVec.ofNat_add_ofNat,
    BitVec.ofNat_add_ofNat]
  congr 1
  omega

/-! ### The width masks -/

/-- Below `2 ^ 31` a 32-bit word means the same signed and unsigned. -/
theorem toInt_of_toNat_eq {x : BitVec 32} {n : ℕ} (h : x.toNat = n) (hn : n < 2 ^ 31) :
    x.toInt = n := by
  rw [BitVec.toInt_eq_toNat_cond]
  split <;> omega

/-- `lane - delta`, read signed, is the integer difference for a delta below `2 ^ 30`. -/
theorem toInt_ofNat_sub {lane : ℕ} {a : BitVec 32} (hlane : lane < 64) (ha : a.toNat < 2 ^ 30) :
    (BitVec.ofNat 32 lane - a).toInt = lane - a.toNat := by
  rw [BitVec.toInt_eq_toNat_cond, BitVec.toNat_sub, BitVec.toNat_ofNat]
  split <;> omega

/-- `width - 1`, for a width `2 ^ k`. -/
theorem ofNat_two_pow_sub_one {k : ℕ} (hk : k < 32) :
    BitVec.ofNat 32 (2 ^ k) - BitVec.ofInt 32 1 = BitVec.ofNat 32 (2 ^ k - 1) := by
  have hpow : 2 ^ k < 2 ^ 32 := Nat.pow_lt_pow_right (by decide) hk
  have hpos := Nat.two_pow_pos k
  have hone : (BitVec.ofInt 32 1).toNat = 1 := by decide
  apply BitVec.eq_of_toNat_eq
  simp only [BitVec.toNat_sub, BitVec.toNat_ofNat, hone]
  omega

/-- `x & (2 ^ k - 1)` keeps the low `k` bits: the place of a lane in its group. -/
theorem toNat_and_lowMask {x k : ℕ} (hx : x < 2 ^ 32) (hk : k < 32) :
    (BitVec.ofNat 32 x &&& BitVec.ofNat 32 (2 ^ k - 1)).toNat = x % 2 ^ k := by
  have hpow : 2 ^ k < 2 ^ 32 := Nat.pow_lt_pow_right (by decide) hk
  rw [BitVec.toNat_and, BitVec.toNat_ofNat, BitVec.toNat_ofNat, Nat.mod_eq_of_lt hx,
    Nat.mod_eq_of_lt (by omega), Nat.and_pow_two_sub_one_eq_mod]

/-- `x & ~(2 ^ k - 1)` clears the low `k` bits: the first lane of a lane's group. -/
theorem toNat_and_not_lowMask {x k : ℕ} (hx : x < 2 ^ 32) (hk : k < 32) :
    (BitVec.ofNat 32 x &&& ~~~BitVec.ofNat 32 (2 ^ k - 1)).toNat = x / 2 ^ k * 2 ^ k := by
  have hpow : 2 ^ k < 2 ^ 32 := Nat.pow_lt_pow_right (by decide) hk
  have hpos := Nat.two_pow_pos k
  have hnot : (~~~BitVec.ofNat 32 (2 ^ k - 1)).toNat = (2 ^ (32 - k) - 1) <<< k := by
    rw [BitVec.toNat_not, BitVec.toNat_ofNat, Nat.mod_eq_of_lt (by omega), Nat.shiftLeft_eq,
      Nat.sub_mul, Nat.one_mul, ← Nat.pow_add, Nat.sub_add_cancel hk.le]
    omega
  rw [BitVec.toNat_and, hnot, BitVec.toNat_ofNat, Nat.mod_eq_of_lt hx, ← Nat.shiftRight_eq_div_pow,
    ← Nat.shiftLeft_eq]
  apply Nat.eq_of_testBit_eq
  intro i
  simp only [Nat.testBit_and, Nat.testBit_shiftLeft, Nat.testBit_two_pow_sub_one,
    Nat.testBit_shiftRight]
  by_cases hki : k ≤ i
  · by_cases hi : i < 32
    · simp [hki, Nat.add_sub_cancel' hki, show i - k < 32 - k by omega]
    · rw [Nat.add_sub_cancel' hki,
        Nat.testBit_lt_two_pow (Nat.lt_of_lt_of_le hx (Nat.pow_le_pow_right Nat.two_pos (by omega)))]
      simp
  · simp [hki]

/-! ### The index of each shuffle -/

section Index

variable (ρ : ℕ → Expr → BitVec 32) {lane : ℕ}

/-- A `Select` on `a < b` picks by the signed order. -/
@[simp] theorem eval_select_lt (a b t f : Expr) :
    (Expr.select (.lt a b) t f).eval ρ lane =
      if (a.eval ρ lane).toInt < (b.eval ρ lane).toInt then t.eval ρ lane else f.eval ρ lane := by
  change (if (if (a.eval ρ lane).slt (b.eval ρ lane) then 1 else 0 : BitVec 32) ≠ 0 then _ else _) = _
  by_cases h : (a.eval ρ lane).toInt < (b.eval ρ lane).toInt <;> simp [BitVec.slt, h]

/-- A `Select` on `a >= b` picks by the signed order. -/
@[simp] theorem eval_select_ge (a b t f : Expr) :
    (Expr.select (.ge a b) t f).eval ρ lane =
      if (b.eval ρ lane).toInt ≤ (a.eval ρ lane).toInt then t.eval ρ lane else f.eval ρ lane := by
  change (if (if (b.eval ρ lane).sle (a.eval ρ lane) then 1 else 0 : BitVec 32) ≠ 0 then _ else _) = _
  by_cases h : (b.eval ρ lane).toInt ≤ (a.eval ρ lane).toInt <;> simp [BitVec.sle, h]

/-- `self & ~(width - 1)`: the first lane of the lane's group. -/
theorem eval_groupFirst {width : Expr} {k : ℕ} (hlane : lane < 64) (hk : k ≤ 6)
    (hwidth : width.eval ρ lane = BitVec.ofNat 32 (2 ^ k)) :
    (Expr.bitwiseAnd laneId (.bitwiseNot (.sub width (.intImm width.bits 1)))).eval ρ lane =
      BitVec.ofNat 32 (lane / 2 ^ k * 2 ^ k) := by
  apply BitVec.eq_of_toNat_eq
  simp only [Expr.eval_bitwiseAnd, Expr.eval_bitwiseNot, Expr.eval_sub, Expr.eval_intImm,
    eval_laneId ρ hlane, hwidth, ofNat_two_pow_sub_one (by omega : k < 32),
    toNat_and_not_lowMask (by omega : lane < 2 ^ 32) (by omega : k < 32), BitVec.toNat_ofNat]
  exact (Nat.mod_eq_of_lt (by have := Nat.div_mul_le_self lane (2 ^ k); omega)).symm

/-- `self & (width - 1)`: the lane's place in its group. -/
theorem eval_groupPlace {width : Expr} {k : ℕ} (hlane : lane < 64) (hk : k ≤ 6)
    (hwidth : width.eval ρ lane = BitVec.ofNat 32 (2 ^ k)) :
    (Expr.bitwiseAnd laneId (.sub width (.intImm width.bits 1))).eval ρ lane =
      BitVec.ofNat 32 (lane % 2 ^ k) := by
  apply BitVec.eq_of_toNat_eq
  simp only [Expr.eval_bitwiseAnd, Expr.eval_sub, Expr.eval_intImm, eval_laneId ρ hlane, hwidth,
    ofNat_two_pow_sub_one (by omega : k < 32),
    toNat_and_lowMask (by omega : lane < 2 ^ 32) (by omega : k < 32), BitVec.toNat_ofNat]
  exact (Nat.mod_eq_of_lt (by have := Nat.mod_le lane (2 ^ k); omega)).symm

/-- `tvm_warp_shuffle` reads lane `src_lane` of the lane's group. -/
theorem toNat_eval_shuffleIndex_shuffle {arg width index : Expr} {k : ℕ}
    (h : shuffleIndex ShuffleKind.shuffle.opName arg width = .ok index) (hlane : lane < 64)
    (hk : k ≤ 6) (hwidth : width.eval ρ lane = BitVec.ofNat 32 (2 ^ k))
    (harg : (arg.eval ρ lane).toNat < 2 ^ 30) :
    (index.eval ρ lane).toNat = shuffleSource .shuffle lane (2 ^ k) (arg.eval ρ lane).toNat := by
  cases h
  have hfirst := Nat.div_mul_le_self lane (2 ^ k)
  simp only [Expr.eval_add, eval_groupFirst ρ hlane hk hwidth, BitVec.toNat_add,
    BitVec.toNat_ofNat, shuffleSource]
  omega

/-- `tvm_warp_shuffle_up` reads `delta` lanes below, or the lane itself where that would leave the
group. -/
theorem toNat_eval_shuffleIndex_up {arg width index : Expr} {k : ℕ}
    (h : shuffleIndex ShuffleKind.up.opName arg width = .ok index) (hlane : lane < 64)
    (hk : k ≤ 6) (hwidth : width.eval ρ lane = BitVec.ofNat 32 (2 ^ k))
    (harg : (arg.eval ρ lane).toNat < 2 ^ 30) :
    (index.eval ρ lane).toNat = shuffleSource .up lane (2 ^ k) (arg.eval ρ lane).toNat := by
  cases h
  have hfirst := Nat.div_mul_le_self lane (2 ^ k)
  have hlane' : lane / 2 ^ k * 2 ^ k + lane % 2 ^ k = lane := by
    rw [Nat.mul_comm]; exact Nat.div_add_mod lane (2 ^ k)
  have hdiff := toInt_ofNat_sub hlane harg
  have hfirst' := toInt_of_toNat_eq (BitVec.toNat_ofNat (lane / 2 ^ k * 2 ^ k) 32)
    (Nat.lt_of_le_of_lt (Nat.mod_le _ _) (by omega))
  have hself : (BitVec.ofNat 32 lane).toNat = lane := Nat.mod_eq_of_lt (by omega)
  simp only [eval_select_lt, Expr.eval_sub, eval_groupFirst ρ hlane hk hwidth,
    eval_laneId ρ hlane, hdiff, hfirst', shuffleSource]
  split_ifs with hbelow hin
  · omega
  · exact hself
  · rw [BitVec.toNat_sub_of_le (BitVec.le_def.2 (by omega)), hself]
  · omega

/-- `tvm_warp_shuffle_down` reads `delta` lanes above, or the lane itself where that would leave
the group. -/
theorem toNat_eval_shuffleIndex_down {arg width index : Expr} {k : ℕ}
    (h : shuffleIndex ShuffleKind.down.opName arg width = .ok index) (hlane : lane < 64)
    (hk : k ≤ 6) (hwidth : width.eval ρ lane = BitVec.ofNat 32 (2 ^ k))
    (harg : (arg.eval ρ lane).toNat < 2 ^ 30) :
    (index.eval ρ lane).toNat = shuffleSource .down lane (2 ^ k) (arg.eval ρ lane).toNat := by
  cases h
  have hpow : 2 ^ k ≤ 2 ^ 6 := Nat.pow_le_pow_right (by decide) hk
  have hplace := Nat.mod_lt lane (Nat.two_pow_pos k)
  have hsum := toInt_of_toNat_eq (x := BitVec.ofNat 32 (lane % 2 ^ k) + arg.eval ρ lane)
    (n := lane % 2 ^ k + (arg.eval ρ lane).toNat)
    (by rw [BitVec.toNat_add, BitVec.toNat_ofNat]; omega) (by omega)
  have hwidth' := toInt_of_toNat_eq (x := BitVec.ofNat 32 (2 ^ k)) (n := 2 ^ k)
    (by rw [BitVec.toNat_ofNat]; omega) (by omega)
  have hself : (BitVec.ofNat 32 lane).toNat = lane := Nat.mod_eq_of_lt (by omega)
  simp only [eval_select_ge, Expr.eval_add, eval_groupPlace ρ hlane hk hwidth,
    eval_laneId ρ hlane, hwidth, hsum, hwidth', shuffleSource]
  split_ifs with hout hin
  · omega
  · exact hself
  · rw [BitVec.toNat_add_of_lt (by omega), hself]
  · omega

/-- **The lane each shuffle reads.** For a width `2 ^ k` of at most the wave and a lane argument
below `2 ^ 30`, the index `DispatchShuffle` computes on lane `lane` is the shuffle's source lane. -/
theorem toNat_eval_shuffleIndex (kind : ShuffleKind) {arg width index : Expr} {k : ℕ}
    (h : shuffleIndex kind.opName arg width = .ok index) (hlane : lane < 64) (hk : k ≤ 6)
    (hwidth : width.eval ρ lane = BitVec.ofNat 32 (2 ^ k))
    (harg : (arg.eval ρ lane).toNat < 2 ^ 30) :
    (index.eval ρ lane).toNat = shuffleSource kind lane (2 ^ k) (arg.eval ρ lane).toNat := by
  cases kind
  exacts [toNat_eval_shuffleIndex_shuffle ρ h hlane hk hwidth harg,
    toNat_eval_shuffleIndex_up ρ h hlane hk hwidth harg,
    toNat_eval_shuffleIndex_down ρ h hlane hk hwidth harg]

end Index

/-! ### The OCML functions -/

/-- The names that pass `ICHECK_EQ(name.substr(0, 4), "tir.")` are the names `tir.<rest>`, and
`name.substr(4)` is `rest`. -/
theorem take_four_eq_iff (name : String) :
    name.take 4 = "tir." ↔ name = "tir." ++ name.drop 4 := by
  constructor
  · intro h
    apply String.ext
    rw [String.data_append, String.data_drop, ← h, String.data_take, List.take_append_drop]
  · intro h
    rw [h]
    apply String.ext
    simp only [String.data_take, String.data_append, String.data_drop]
    exact List.take_left' rfl

theorem drop_four_tir (rest : String) : ("tir." ++ rest).drop 4 = rest :=
  String.ext (by simp only [String.data_drop, String.data_append]; exact List.drop_left' rfl)

/-- What `DispatchPureExternOCML` accepts and builds: a call of `tir.<rest>` becomes the call of
`__ocml_<rest>_f<bits>` on the same arguments, with the same type. -/
theorem dispatchPureExternOCML_eq_ok {e res : Expr} :
    dispatchPureExternOCML e = .ok res ↔ ∃ bits rest args,
      e = .call bits ("tir." ++ rest) args ∧
        res = pureExtern bits ("__ocml_" ++ rest ++ "_f" ++ toString bits) args := by
  constructor
  · intro h
    cases e <;> simp only [dispatchPureExternOCML, reduceCtorEq] at h
    rename_i bits name args
    split_ifs at h with hname
    cases h
    exact ⟨bits, name.drop 4, args, by rw [← (take_four_eq_iff name).1 hname], rfl⟩
  · rintro ⟨bits, rest, args, rfl, rfl⟩
    rw [dispatchPureExternOCML, if_pos ((take_four_eq_iff _).2 (by rw [drop_four_tir])),
      drop_four_tir]

/-- **No two intrinsic calls lower to the same OCML call**: the intrinsic's name, its type and its
arguments can be read back from the call `DispatchPureExternOCML` builds. -/
theorem dispatchPureExternOCML_injective {e e' res : Expr} (h : dispatchPureExternOCML e = .ok res)
    (h' : dispatchPureExternOCML e' = .ok res) : e = e' := by
  obtain ⟨bits, rest, args, rfl, rfl⟩ := dispatchPureExternOCML_eq_ok.1 h
  obtain ⟨bits', rest', args', rfl, hres⟩ := dispatchPureExternOCML_eq_ok.1 h'
  simp only [pureExtern, Expr.call.injEq, List.cons.injEq, Expr.stringImm.injEq, true_and] at hres
  obtain ⟨rfl, hname, rfl⟩ := hres
  have hrest : rest.data = rest'.data := by
    have := congrArg String.data hname
    simp only [String.data_append, List.append_assoc, List.append_cancel_left_eq,
      List.append_cancel_right_eq] at this
    exact this
  rw [String.ext hrest]

/-! ### What `DispatchShuffle` accepts -/

/-- `shuffleIndex` knows exactly the three warp shuffles. -/
theorem shuffleIndex_isOk_iff (op : String) (arg width : Expr) :
    (∃ index, shuffleIndex op arg width = .ok index) ↔ ∃ kind : ShuffleKind, op = kind.opName := by
  constructor
  · rintro ⟨index, h⟩
    unfold shuffleIndex at h
    split_ifs at h with h1 h2 h3
    exacts [⟨.shuffle, h1⟩, ⟨.up, h2⟩, ⟨.down, h3⟩]
  · rintro ⟨kind, rfl⟩
    cases kind <;> simp [shuffleIndex, ShuffleKind.opName]

/-- What a successful `DispatchShuffle` builds: `ds_bpermute(index << 2, value)` over the index of
its operator. -/
theorem dispatchShuffle_eq_ok {bits : ℕ} {op : String} {mask value arg width warpSize res : Expr} :
    dispatchShuffle (.call bits op [mask, value, arg, width, warpSize]) = .ok res ↔
      value.bits = 32 ∧ ∃ index, shuffleIndex op arg width = .ok index ∧
        res = pureExtern 32 "llvm.amdgcn.ds.bpermute"
          [.shiftLeft index (.intImm index.bits 2), value] := by
  simp only [dispatchShuffle]
  split_ifs with hv
  · cases shuffleIndex op arg width <;> simp [Except.map, hv, eq_comm]
  · simp [hv]

/-- **`DispatchShuffle` lowers exactly the well-formed shuffles**: a call of one of the three warp
shuffles on five arguments whose value is a 32-bit word. Every other expression fails one of its
`ICHECK`s. -/
theorem dispatchShuffle_isOk_iff (e : Expr) :
    (∃ res, dispatchShuffle e = .ok res) ↔ ∃ bits kind mask value arg width warpSize,
      e = .call bits (ShuffleKind.opName kind) [mask, value, arg, width, warpSize] ∧
        value.bits = 32 := by
  constructor
  · rintro ⟨res, h⟩
    unfold dispatchShuffle at h
    split at h
    · rename_i bits op args
      split at h
      · rename_i mask value arg width warpSize
        obtain ⟨hv, index, hindex, -⟩ :=
          (@dispatchShuffle_eq_ok bits op mask value arg width warpSize res).1 h
        obtain ⟨kind, rfl⟩ := (shuffleIndex_isOk_iff op arg width).1 ⟨index, hindex⟩
        exact ⟨bits, kind, mask, value, arg, width, warpSize, rfl, hv⟩
      · cases h
    · cases h
  · rintro ⟨bits, kind, mask, value, arg, width, warpSize, rfl, hv⟩
    obtain ⟨index, hindex⟩ := (shuffleIndex_isOk_iff kind.opName arg width).2 ⟨kind, rfl⟩
    exact ⟨_, dispatchShuffle_eq_ok.2 ⟨hv, index, hindex, rfl⟩⟩

/-! ### The lowered shuffle -/

/-- `ds_bpermute(index << 2, value)` reads `value` on lane `index mod 64`. -/
theorem eval_bpermute (ρ : ℕ → Expr → BitVec 32) (lane : ℕ) (index value : Expr) (bits : ℕ) :
    (pureExtern 32 "llvm.amdgcn.ds.bpermute" [.shiftLeft index (.intImm bits 2), value]).eval ρ lane =
      value.eval ρ ((index.eval ρ lane).toNat % 64) := by
  have htwo : (BitVec.ofInt 32 2).toNat = 2 := by decide
  simp only [eval_dsBpermute, Expr.eval_shiftLeft, Expr.eval_intImm, htwo, BitVec.toNat_shiftLeft,
    Nat.shiftLeft_eq]
  congr 1
  omega

/-- **The shuffle lowering is correct.** On every lane of the wave, for a width `2 ^ k` of at most
the wave and a lane argument below `2 ^ 30`, the `ds_bpermute` that `DispatchShuffle` builds for a
warp shuffle returns the `value` held by the lane the shuffle names, modulo the wave. -/
theorem dispatchShuffle_eval (kind : ShuffleKind) {bits : ℕ}
    {mask value arg width warpSize res : Expr}
    (h : dispatchShuffle (.call bits kind.opName [mask, value, arg, width, warpSize]) = .ok res)
    (ρ : ℕ → Expr → BitVec 32) {lane k : ℕ} (hlane : lane < 64) (hk : k ≤ 6)
    (hwidth : width.eval ρ lane = BitVec.ofNat 32 (2 ^ k))
    (harg : (arg.eval ρ lane).toNat < 2 ^ 30) :
    res.eval ρ lane =
      value.eval ρ (shuffleSource kind lane (2 ^ k) (arg.eval ρ lane).toNat % 64) := by
  obtain ⟨-, index, hindex, rfl⟩ := dispatchShuffle_eq_ok.1 h
  rw [eval_bpermute, toNat_eval_shuffleIndex ρ kind hindex hlane hk hwidth harg]

/-- Lane 5 of a `tvm_warp_shuffle_down` by one over groups of four reads lane 6, where every lane
holds its own id. -/
theorem dispatchShuffle_eval_down_five :
    ∃ res, dispatchShuffle (.call 32 ShuffleKind.down.opName
        [.leaf 32 0, .leaf 32 1, .intImm 32 1, .intImm 32 4, .intImm 32 64]) = .ok res ∧
      res.eval (fun l _ => BitVec.ofNat 32 l) 5 = BitVec.ofNat 32 6 :=
  ⟨_, rfl, @dispatchShuffle_eval .down 32 (.leaf 32 0) (.leaf 32 1) (.intImm 32 1) (.intImm 32 4)
    (.intImm 32 64) _ rfl (fun l _ => BitVec.ofNat 32 l) 5 2 (by decide) (by decide) rfl (by decide)⟩

/-- **The lowered shuffle reads inside the lane's group**: the up and down shuffles, and
`tvm_warp_shuffle` with a source lane below the width, return the `value` of a lane of the same
group of `2 ^ k` lanes. -/
theorem dispatchShuffle_eval_mem_group (kind : ShuffleKind) {bits : ℕ}
    {mask value arg width warpSize res : Expr}
    (h : dispatchShuffle (.call bits kind.opName [mask, value, arg, width, warpSize]) = .ok res)
    (ρ : ℕ → Expr → BitVec 32) {lane k : ℕ} (hlane : lane < 64) (hk : k ≤ 6)
    (hwidth : width.eval ρ lane = BitVec.ofNat 32 (2 ^ k))
    (harg : (arg.eval ρ lane).toNat < 2 ^ 30)
    (hsrc : kind = .shuffle → (arg.eval ρ lane).toNat < 2 ^ k) :
    ∃ src < 64, src / 2 ^ k = lane / 2 ^ k ∧ res.eval ρ lane = value.eval ρ src := by
  obtain ⟨-, index, hindex, rfl⟩ := dispatchShuffle_eq_ok.1 h
  obtain ⟨hlt, hdiv⟩ := shuffleSource_mem_group kind hlane hk hsrc
  refine ⟨_, hlt, hdiv, ?_⟩
  rw [eval_bpermute, toNat_eval_shuffleIndex ρ kind hindex hlane hk hwidth harg, Nat.mod_eq_of_lt hlt]

/-- Lane 2 of a `tvm_warp_shuffle_up` by three over groups of four stays on lane 2, in its group. -/
theorem dispatchShuffle_eval_up_two :
    ∃ res, dispatchShuffle (.call 32 ShuffleKind.up.opName
        [.leaf 32 0, .leaf 32 1, .intImm 32 3, .intImm 32 4, .intImm 32 64]) = .ok res ∧
      ∃ src < 64, src / 2 ^ 2 = 2 / 2 ^ 2 ∧
        res.eval (fun l _ => BitVec.ofNat 32 l) 2 = (Expr.leaf 32 1).eval (fun l _ => BitVec.ofNat 32 l) src :=
  ⟨_, rfl, @dispatchShuffle_eval_mem_group .up 32 (.leaf 32 0) (.leaf 32 1) (.intImm 32 3)
    (.intImm 32 4) (.intImm 32 64) _ rfl (fun l _ => BitVec.ofNat 32 l) 2 2 (by decide) (by decide)
    rfl (by decide) (by decide)⟩

/-- Why `dispatchShuffle_eval_mem_group` asks a `tvm_warp_shuffle` for a source lane below the
width: at or above it, and still inside the wave, the lowered shuffle reads a lane of another
group. -/
theorem dispatchShuffle_eval_not_mem_group {bits : ℕ} {mask value arg width warpSize res : Expr}
    (h : dispatchShuffle (.call bits ShuffleKind.shuffle.opName [mask, value, arg, width, warpSize]) =
      .ok res)
    (ρ : ℕ → Expr → BitVec 32) {lane k : ℕ} (hlane : lane < 64) (hk : k ≤ 6)
    (hwidth : width.eval ρ lane = BitVec.ofNat 32 (2 ^ k))
    (harg : (arg.eval ρ lane).toNat < 2 ^ 30) (hsrc : 2 ^ k ≤ (arg.eval ρ lane).toNat)
    (hwave : lane / 2 ^ k * 2 ^ k + (arg.eval ρ lane).toNat < 64) :
    ∃ src < 64, src / 2 ^ k ≠ lane / 2 ^ k ∧ res.eval ρ lane = value.eval ρ src := by
  obtain ⟨-, index, hindex, rfl⟩ := dispatchShuffle_eq_ok.1 h
  refine ⟨_, hwave, shuffleSource_shuffle_not_mem_group (Nat.two_pow_pos k) hsrc, ?_⟩
  rw [eval_bpermute, toNat_eval_shuffleIndex ρ .shuffle hindex hlane hk hwidth harg, shuffleSource,
    Nat.mod_eq_of_lt hwave]

end Codegen

end Amos
