import Mathlib.Tactic.Linarith

/-!
Cycles and ticks in nanoseconds (`lib/time.c`).

The product of a count and a frequency does not fit a word, so the two halves of the count are
converted one after the other and the remainder of the first goes into the second. There it may
be too much.
-/

namespace Corey.User.Time

def timerConvert (n a b : UInt64) : UInt64 :=
  let hi := n >>> 32
  let lo := n &&& 0xffffffff
  let hiHz := hi * a
  let hiB := hiHz / b
  let hiHzCarry := hiHz - hiB * b
  let loHz := lo * a + (hiHzCarry <<< 32)
  let loB := loHz / b
  (hiB <<< 32) + loB

def nsecPerSecond : UInt64 := 1000000000

structure Timer where
  ticks : UInt64 := 0
  intHz : UInt64 := 0
  defHz : UInt64 := 100
  deriving DecidableEq

/-- A call of `sys_processor_set_interval` that does not succeed ends in a panic. -/
def timeInit (succeeds : Bool) (hz : UInt64) (t : Timer) : Option Timer :=
  if succeeds then some { t with intHz := hz } else none

def timeNsec (succeeds : Bool) (t : Timer) : Option (UInt64 × Timer) := do
  let t ← if t.intHz = 0 then timeInit succeeds t.defHz t else some t
  return (timerConvert t.ticks nsecPerSecond t.intHz, t)

def timeCyclesToNsec (cpufreq cycles : UInt64) : UInt64 :=
  timerConvert cycles nsecPerSecond cpufreq

/-- `lo_hz` before it is cut to a word. -/
def loHz (n b : UInt64) : ℕ :=
  n.toNat % 2 ^ 32 * 10 ^ 9 + n.toNat / 2 ^ 32 * 10 ^ 9 % b.toNat * 2 ^ 32

variable {b : UInt64}

lemma toNat_carry (x b : UInt64) : (x - x / b * b).toNat = x.toNat % b.toNat := by
  have hle := Nat.div_mul_le_self x.toNat b.toNat
  have hmul : (x / b * b).toNat = x.toNat / b.toNat * b.toNat := by
    rw [UInt64.toNat_mul, UInt64.toNat_div, Nat.mod_eq_of_lt (hle.trans_lt x.toNat_lt)]
  rw [UInt64.toNat_sub_of_le _ _ (UInt64.le_iff_toNat_le.2 (hmul ▸ hle)), hmul]
  have := Nat.div_add_mod' x.toNat b.toNat
  omega

lemma toNat_timerConvert (n b : UInt64) :
    (timerConvert n nsecPerSecond b).toNat =
      (n.toNat / 2 ^ 32 * 10 ^ 9 / b.toNat * 2 ^ 32 + loHz n b % 2 ^ 64 / b.toNat) % 2 ^ 64 := by
  have hn := n.toNat_lt
  have hand := Nat.and_two_pow_sub_one_eq_mod n.toNat 32
  have hhi : n.toNat / 2 ^ 32 * 10 ^ 9 < 2 ^ 64 := by omega
  simp only [Nat.reducePow, Nat.reduceSub] at hand hhi
  simp [timerConvert, nsecPerSecond, loHz, toNat_carry, Nat.shiftRight_eq_div_pow,
    Nat.shiftLeft_eq, hand, Nat.mod_eq_of_lt hhi]

lemma floor_eq (n : UInt64) (h0 : 0 < b.toNat) :
    n.toNat * 10 ^ 9 / b.toNat =
      n.toNat / 2 ^ 32 * 10 ^ 9 / b.toNat * 2 ^ 32 + loHz n b / b.toNat := by
  have hn := Nat.div_add_mod n.toNat (2 ^ 32)
  have hH := Nat.div_add_mod (n.toNat / 2 ^ 32 * 10 ^ 9) b.toNat
  rw [← Nat.mul_add_div h0]
  congr 1
  unfold loHz
  linarith

lemma timerConvert_eq_iff (n : UInt64) (h0 : 0 < b.toNat) (hb : b.toNat < 2 ^ 32)
    (hfit : n.toNat * 10 ^ 9 / b.toNat < 2 ^ 64) :
    (timerConvert n nsecPerSecond b).toNat = n.toNat * 10 ^ 9 / b.toNat ↔ loHz n b < 2 ^ 64 := by
  rw [toNat_timerConvert, floor_eq n h0]
  rw [floor_eq n h0] at hfit
  constructor
  · intro h
    by_contra hlarge
    -- the lost 2 ^ 64 would have given at least one more
    have hmore : loHz n b % 2 ^ 64 / b.toNat + 1 ≤ loHz n b / b.toNat := by
      rw [← Nat.add_div_right _ h0]
      exact Nat.div_le_div_right (by omega)
    rw [Nat.mod_eq_of_lt (by omega)] at h
    omega
  · intro h
    rw [Nat.mod_eq_of_lt h, Nat.mod_eq_of_lt hfit]

lemma loHz_lt (n : UInt64) (h0 : 0 < b.toNat) (hb : b.toNat + 10 ^ 9 ≤ 2 ^ 32) :
    loHz n b < 2 ^ 64 := by
  have hcarry := Nat.mod_lt (n.toNat / 2 ^ 32 * 10 ^ 9) h0
  unfold loHz
  omega

/-- The frequency that `time_nsec` divides by. -/
def Timer.hz (t : Timer) : UInt64 := if t.intHz = 0 then t.defHz else t.intHz

lemma timeNsec_eq {succeeds : Bool} {t t' : Timer} {v : UInt64}
    (h : timeNsec succeeds t = some (v, t')) : v = timeCyclesToNsec t.hz t.ticks := by
  unfold timeNsec timeInit at h
  unfold Timer.hz timeCyclesToNsec
  cases succeeds <;> by_cases hz : t.intHz = 0 <;> simp [hz] at h ⊢ <;> exact h.1.symm

/-- **Cycles are converted exactly if the carried sum fits a word.** For each frequency below
`2 ^ 32` and each count whose time fits a word, the result is the time rounded down if and only
if `lo_hz` is not cut, as is so for each count up to `2 ^ 32 - 10 ^ 9` Hz. Counts converted
exactly keep their order, and `time_nsec` converts its ticks in the same way. -/
theorem timeCyclesToNsec_exact (n b : UInt64) (h0 : 0 < b.toNat) (hb : b.toNat < 2 ^ 32)
    (hfit : n.toNat * 10 ^ 9 / b.toNat < 2 ^ 64) :
    ((timeCyclesToNsec b n).toNat = n.toNat * 10 ^ 9 / b.toNat ↔ loHz n b < 2 ^ 64) ∧
      (b.toNat + 10 ^ 9 ≤ 2 ^ 32 → loHz n b < 2 ^ 64) ∧
      (loHz n b < 2 ^ 64 → ∀ m ≤ n, loHz m b < 2 ^ 64 →
        timeCyclesToNsec b m ≤ timeCyclesToNsec b n) ∧
      ∀ succeeds t v t', t.ticks = n → t.hz = b → timeNsec succeeds t = some (v, t') →
        v = timeCyclesToNsec b n := by
  refine ⟨timerConvert_eq_iff n h0 hb hfit, loHz_lt n h0, fun hn m hm hlt => ?_, ?_⟩
  · have hle : m.toNat * 10 ^ 9 / b.toNat ≤ n.toNat * 10 ^ 9 / b.toNat :=
      Nat.div_le_div_right (Nat.mul_le_mul_right _ (UInt64.le_iff_toNat_le.1 hm))
    rw [UInt64.le_iff_toNat_le]
    unfold timeCyclesToNsec
    rwa [(timerConvert_eq_iff n h0 hb hfit).2 hn,
      (timerConvert_eq_iff m h0 hb (hle.trans_lt hfit)).2 hlt]
  · rintro succeeds t v t' rfl rfl h
    exact timeNsec_eq h

/-- A minute at 2 GHz. -/
theorem timeCyclesToNsec_exact_minute : timeCyclesToNsec 2000000000 120000000000 = 60000000000 :=
  UInt64.toNat_inj.1 <| ((timeCyclesToNsec_exact 120000000000 2000000000 (by decide) (by decide)
    (by decide)).1.2 (by decide)).trans (by decide)

/-- After five seconds at 4.2 GHz the clock shows 0.7. -/
theorem timeCyclesToNsec_cut : 21474836479 * 10 ^ 9 / 4200000000 = 5113056304 ∧
    timeCyclesToNsec 4200000000 21474836479 = 720974382 ∧
    timeNsec true { ticks := 21474836479, intHz := 4200000000 } =
      some (720974382, { ticks := 21474836479, intHz := 4200000000 }) := by
  decide

end Corey.User.Time
