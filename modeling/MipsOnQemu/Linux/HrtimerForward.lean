/-
# MipsOnQemu.Linux.HrtimerForward -- forwarding a periodic timer

`hrtimer_forward` of `kernel/hrtimer.c` where `long` has 32 bits: a `ktime_t` is a word of 64 bits, with the
seconds in its upper half and the nanoseconds in its lower one. `ktime_divns` shifts dividend and divisor, so
its quotient may be one too large, which is the number of periods wanted; but it keeps 32 bits of it only.
-/

import Mathlib

namespace Linux

open Nat

/-- The value of a 64-bit word with a sign. -/
def s64 (x : Int) : Int := (x + 2 ^ 63) % 2 ^ 64 - 2 ^ 63

def nsecPerSec : Int := 1000000000

/-- The lower half of a `ktime_t`, with a sign. -/
def ktimeNsec (tv64 : Int) : Int := (tv64 + 2 ^ 31) % 2 ^ 32 - 2 ^ 31

/-- Setting the lower half alone. -/
def ktimeSetNsec (tv64 nsec : Int) : Int := tv64 / 2 ^ 32 * 2 ^ 32 + nsec % 2 ^ 32

def ktimeSub (lhs rhs : Int) : Int :=
  let res := s64 (lhs - rhs)
  if ktimeNsec res < 0 then ktimeSetNsec res (ktimeNsec res + nsecPerSec) else res

def ktimeAdd (add1 add2 : Int) : Int :=
  let res := s64 (add1 + add2)
  if ktimeNsec res ≥ nsecPerSec then s64 (res + (-nsecPerSec) % 2 ^ 32) else res

/-- `ktime_to_ns`, a `u64`. -/
def ktimeToNs (kt : Int) : Int := (kt / 2 ^ 32 * nsecPerSec + ktimeNsec kt) % 2 ^ 64

def ktimeSet (secs nsecs : Int) : Int := s64 (secs * 2 ^ 32 + nsecs % 2 ^ 32)

def ktimeAddNs (kt nsec : Int) : Int :=
  let tmp := if nsec < nsecPerSec then nsec else ktimeSet (nsec / nsecPerSec) (nsec % nsecPerSec)
  ktimeAdd kt tmp

/-- The loop of `ktime_divns`: the divisor and the shift. -/
def divnsShift (div sft : Nat) : Nat × Nat :=
  if 2 ^ 32 ≤ div then divnsShift (div / 2) (sft + 1) else (div, sft)

/-- `ktime_divns` by a positive number; the result is an `unsigned long`. -/
def ktimeDivns (kt div : Int) : Nat :=
  let (div, sft) := divnsShift div.toNat 0
  (ktimeToNs kt).toNat / 2 ^ sft / div % 2 ^ 32

/-- What `hrtimer_forward` returns, and the new expiry. -/
def hrtimerForward (expires now interval resolution : Int) : Nat × Int :=
  let delta := ktimeSub now expires
  if delta < 0 then (0, expires)
  else
    let interval := if interval < resolution then resolution else interval
    if delta ≥ interval then
      let incr := s64 (ktimeToNs interval)
      let orun := ktimeDivns delta incr
      let expires := ktimeAddNs expires (s64 (incr * orun) % 2 ^ 64)
      if expires > now then (orun, expires) else ((orun + 1) % 2 ^ 32, ktimeAdd expires interval)
    else (1, ktimeAdd expires interval)

/-! ## Times -/

/-- The `ktime_t` of a time that is not negative, in nanoseconds. -/
def ktimeOf (ns : Nat) : Int := ns / 1000000000 * 2 ^ 32 + ns % 1000000000

/-- The seconds are below `2 ^ 31`. -/
abbrev FitsKtime (ns : Nat) : Prop := ns < 2 ^ 31 * 1000000000

variable {a b : Nat}

theorem ktimeOf_strictMono : StrictMono ktimeOf := by
  intro a b hlt
  unfold ktimeOf
  omega

theorem ktimeOf_nonneg : 0 ≤ ktimeOf a := by
  unfold ktimeOf
  omega

theorem ktimeSub_of (ha : FitsKtime a) (hb : b ≤ a) :
    ktimeSub (ktimeOf a) (ktimeOf b) = ktimeOf (a - b) := by
  unfold ktimeSub ktimeSetNsec ktimeNsec s64 ktimeOf nsecPerSec
  dsimp only
  split <;> omega

theorem ktimeSub_neg (hb : FitsKtime b) (hlt : a < b) : ktimeSub (ktimeOf a) (ktimeOf b) < 0 := by
  have hmax : ktimeOf b < 2 ^ 63 := by
    unfold ktimeOf
    omega
  have hle := ktimeOf_nonneg (a := a)
  have hword := ktimeOf_strictMono hlt
  unfold ktimeSub ktimeSetNsec ktimeNsec s64 nsecPerSec
  dsimp only
  split <;> omega

theorem ktimeAdd_of (h : FitsKtime (a + b)) : ktimeAdd (ktimeOf a) (ktimeOf b) = ktimeOf (a + b) := by
  unfold ktimeAdd ktimeNsec s64 ktimeOf nsecPerSec
  dsimp only
  split <;> omega

theorem ktimeToNs_of (h : FitsKtime a) : ktimeToNs (ktimeOf a) = a := by
  unfold ktimeToNs ktimeNsec ktimeOf nsecPerSec
  omega

theorem s64_of (h : FitsKtime a) : s64 a = a := by
  unfold s64
  omega

theorem ktimeAddNs_of (h : FitsKtime (a + b)) : ktimeAddNs (ktimeOf a) b = ktimeOf (a + b) := by
  have htmp : (if (b : Int) < nsecPerSec then (b : Int)
      else ktimeSet (b / nsecPerSec) (b % nsecPerSec)) = ktimeOf b := by
    unfold ktimeSet s64 ktimeOf nsecPerSec
    split <;> omega
  rw [ktimeAddNs, htmp, ktimeAdd_of h]

/-! ## The quotient -/

theorem divnsShift_spec (div sft : Nat) : ∃ k, divnsShift div sft = (div / 2 ^ k, sft + k) ∧
    (k = 0 ∨ 2 ^ 32 ≤ div ∧ 2 ^ 31 ≤ div / 2 ^ k) := by
  fun_induction divnsShift div sft with
  | case1 div sft hbig ih =>
    obtain ⟨k, heq, hge⟩ := ih
    have hdiv : div / 2 / 2 ^ k = div / 2 ^ (k + 1) := by rw [Nat.div_div_eq_div_mul, pow_succ']
    refine ⟨k + 1, by rw [heq, hdiv, add_right_comm, add_assoc], .inr ⟨hbig, ?_⟩⟩
    rcases hge with rfl | ⟨-, hge⟩
    · omega
    · exact hdiv ▸ hge
  | case2 div sft hsmall => exact ⟨0, by simp, .inl rfl⟩

/-- Dividing `d / p` by `i / p`, which is more than the quotient. -/
theorem shifted_div {d i p : Nat} (hp : 0 < p) (hlarge : d / i < i / p) :
    d / p / (i / p) = d / i ∨ d / p / (i / p) = d / i + 1 := by
  have hmul : p * (d / i + 1) ≤ p * (i / p) := Nat.mul_le_mul_left p hlarge
  have hmod := div_add_mod i p
  have hlt := mod_lt i hp
  have hc : 0 < p * (i / p) := (Nat.mul_pos hp (succ_pos _)).trans_le hmul
  rw [Nat.div_div_eq_div_mul]
  generalize p * (i / p) = c at *
  have hlow : d / i ≤ d / c := Nat.div_le_div_left (by omega) hc
  have hhigh : d / c < d / i + 2 := by
    have hnext : d < (d / i + 1) * i := lt_mul_of_div_lt (lt_add_one _) (by omega)
    rw [div_lt_iff_lt_mul hc]
    nlinarith
  omega

/-- The exact quotient without its upper bits, or one more than the quotient. -/
theorem ktimeDivns_of {d i : Nat} (hd : FitsKtime d) (hi : 0 < i) :
    ktimeDivns (ktimeOf d) i = d / i % 2 ^ 32 ∨
      d / i + 1 < 2 ^ 32 ∧ ktimeDivns (ktimeOf d) i = d / i + 1 := by
  obtain ⟨k, heq, hk⟩ := divnsShift_spec i 0
  have hdivns : ktimeDivns (ktimeOf d) i = d / 2 ^ k / (i / 2 ^ k) % 2 ^ 32 := by
    simp [ktimeDivns, ktimeToNs_of hd, heq]
  rw [hdivns]
  rcases hk with rfl | ⟨hbig, hk⟩
  · simp
  · have hquot : d / i < 2 ^ 31 := by
      rw [div_lt_iff_lt_mul hi]
      omega
    rcases shifted_div (Nat.two_pow_pos k) (hquot.trans_le hk) with hdiv | hdiv
    · exact .inl (by rw [hdiv])
    · exact .inr ⟨by omega, by rw [hdiv, mod_eq_of_lt (by omega)]⟩

/-! ## Forwarding -/

/-- What forwarding a timer from `e` past `now` in periods of `i` is for; `r` is what was returned and the
new expiry. -/
def Forwarded (e now i : Nat) (r : Nat × Int) : Prop :=
  if now < e then r = (0, ktimeOf e)
  else ∃ k, now < e + k * i ∧ (∀ j, now < e + j * i → k ≤ j) ∧ r.2 = ktimeOf (e + k * i) ∧
    (k < 2 ^ 32 → r.1 = k)

section

variable {e now interval resolution i : Nat} (hi : i = max interval resolution) (hpos : 0 < interval)
  (hnow : FitsKtime now)
include hi hpos hnow

/-- **The periods added**: the lower 32 bits of the number that have passed, and one. -/
theorem hrtimerForward_of_le (hle : e ≤ now) (hfit : FitsKtime (e + ((now - e) / i + 1) * i)) :
    hrtimerForward (ktimeOf e) (ktimeOf now) (ktimeOf interval) (ktimeOf resolution) =
      (((now - e) / i % 2 ^ 32 + 1) % 2 ^ 32, ktimeOf (e + ((now - e) / i % 2 ^ 32 + 1) * i)) := by
  have hper := (ktimeOf_strictMono.monotone.map_max (a := interval) (b := resolution)).trans (max_def_lt _ _)
  have hipos : 0 < i := by omega
  have hquot := ktimeDivns_of (by omega : FitsKtime (now - e)) hipos
  have hpast := div_mul_le_self (now - e) i
  have hnext := lt_mul_of_div_lt (lt_add_one ((now - e) / i)) hipos
  have hsoon := fun hlt : now - e < i => div_eq_of_lt hlt
  generalize (now - e) / i = q at *
  have hfits {k : Nat} (hk : k ≤ q + 1) : FitsKtime (e + k * i) :=
    (Nat.add_le_add_left (mul_le_mul_right i hk) e).trans_lt hfit
  have hadd {k : Nat} (hk : k ≤ q) : ktimeAdd (ktimeOf (e + k * i)) (ktimeOf i) = ktimeOf (e + (k + 1) * i) := by
    have hsum := hfits (succ_le_succ hk)
    rw [succ_mul, ← add_assoc] at hsum
    rw [ktimeAdd_of hsum, add_one_mul, add_assoc]
  unfold hrtimerForward
  simp only [← hper, ← hi, ktimeSub_of hnow hle, if_neg ktimeOf_nonneg.not_gt, ge_iff_le, gt_iff_lt,
    ktimeOf_strictMono.le_iff_le]
  split
  next hlate =>
    have hincr : s64 (ktimeToNs (ktimeOf i)) = i := by rw [ktimeToNs_of (by omega), s64_of (by omega)]
    have haddNs {k : Nat} (hk : k ≤ q + 1) :
        ktimeAddNs (ktimeOf e) (s64 (i * k) % 2 ^ 64) = ktimeOf (e + k * i) := by
      have hsum := hfits hk
      rw [← ktimeAddNs_of hsum, ← cast_mul, mul_comm, s64_of (by omega), Int.emod_eq_of_lt] <;> omega
    rw [hincr]
    rcases hquot with heq | ⟨hsmall, heq⟩ <;> rw [heq]
    · -- the correction step adds a period
      have hlow := mod_le q (2 ^ 32)
      have hearly := mul_le_mul_right i hlow
      rw [haddNs (by omega), if_neg (ktimeOf_strictMono.lt_iff_lt.not.2 (by omega)), hadd hlow]
    · rw [haddNs le_rfl, if_pos (ktimeOf_strictMono (by omega)), mod_eq_of_lt (by omega : q < 2 ^ 32),
        mod_eq_of_lt hsmall]
  next hlate =>
    obtain rfl := hsoon (not_le.1 hlate)
    simpa using hadd le_rfl

/-- **A timer is forwarded unless `2 ^ 32` periods or more have passed.** -/
theorem hrtimerForward_iff (he : FitsKtime e) (hfit : e ≤ now → FitsKtime (e + ((now - e) / i + 1) * i)) :
    Forwarded e now i (hrtimerForward (ktimeOf e) (ktimeOf now) (ktimeOf interval) (ktimeOf resolution)) ↔
      (now - e) / i < 2 ^ 32 := by
  rcases lt_or_ge now e with hlt | hle
  · simp [Forwarded, hrtimerForward, hlt, ktimeSub_neg he hlt, Nat.sub_eq_zero_of_le hlt.le]
  have hleast (k : Nat) : now < e + k * i ↔ (now - e) / i < k := by
    rw [div_lt_iff_lt_mul (by omega)]
    omega
  rw [hrtimerForward_of_le hi hpos hnow hle (hfit hle), Forwarded, if_neg hle.not_gt]
  constructor
  · rintro ⟨k, hk, -, heq, -⟩
    rw [← ktimeOf_strictMono.injective heq, hleast] at hk
    omega
  · intro hfew
    rw [mod_eq_of_lt hfew]
    exact ⟨_, (hleast _).2 (lt_add_one _), fun j hj => (hleast j).1 hj, rfl, mod_eq_of_lt⟩

end

theorem hrtimerForward_iff_sample :
    Forwarded 5 27 10 (hrtimerForward (ktimeOf 5) (ktimeOf 27) (ktimeOf 4) (ktimeOf 10)) :=
  (hrtimerForward_iff (by decide) (by decide) (by decide) (by decide) (by decide)).2 (by decide)

/-- A timer with a period of 4 ms that expired 200 days ago. -/
theorem hrtimerForward_past :
    (hrtimerForward (ktimeOf 0) (ktimeOf 17280000000000000) (ktimeOf 4000000) (ktimeOf 4000000)).2 <
      ktimeOf 17280000000000000 := by
  rw [hrtimerForward_of_le rfl (by decide) (by decide) (by decide) (by decide)]
  decide

end Linux
